import TokenForth.Proofs.Parsing
import TokenForth.Proofs.Sources

/-!
# Locations have no influence

Tokens, words, calls and faults carry locations, and a machine knows where execution stands. Machines
that differ in such locations, in output left over from before and in the greatest depths of their
stacks do the same with alike sources. Only the primitive that prints where execution stands could
tell them apart, so it must not be in the dictionary.
-/
namespace TokenForth

open Exec Machine

inductive Action.Alike : Action → Action → Prop
  | primitive (p : Primitive) : Alike (.primitive p) (.primitive p)
  | body {ts us : List Token} (h : List.Forall₂ Token.Alike ts us) : Alike (.body ts) (.body us)

structure Word.Alike (w w' : Word) : Prop where
  name : w.name = w'.name
  action : w.action.Alike w'.action
  description : w.description = w'.description
  signature : w.signature = w'.signature

def TokenStream.Alike (s s' : TokenStream) : Prop := List.Forall₂ Token.Alike s.rest s'.rest

/-- Machines that differ at most in locations, in the output and in how deep their stacks have
been. -/
structure Machine.Alike (m m' : Machine) : Prop where
  config : m.config = m'.config
  data : m.data.cells = m'.data.cells
  returns : m.returns.cells = m'.returns.cells
  radix : m.radix = m'.radix
  words : List.Forall₂ Word.Alike m.dictionary.words m'.dictionary.words
  memory : m.memory = m'.memory
  calls : List.Forall₂ Call.Alike m.calls m'.calls
  streams : List.Forall₂ TokenStream.Alike m.streams m'.streams
  frames : m.frames = m'.frames
  depth : m.depth = m'.depth

/-- No word of the dictionary prints where execution stands. -/
def Dictionary.Discreet (d : Dictionary) : Prop := ∀ w ∈ d.words, w.action ≠ .primitive .report

theorem Word.alike_refl (w : Word) : w.Alike w := by
  refine ⟨rfl, ?_, rfl, rfl⟩
  cases w.action with
  | primitive p => exact .primitive p
  | body tokens => exact .body (List.forall₂_same.mpr fun _ _ => rfl)

theorem forall₂_symm {α : Type} {R : α → α → Prop} (hR : ∀ {a b}, R a b → R b a) {xs ys : List α}
    (h : List.Forall₂ R xs ys) : List.Forall₂ R ys xs :=
  (h.imp fun _ _ hab => hR hab).flip

theorem Token.forall₂_alike_symm {ts us : List Token} (h : List.Forall₂ Token.Alike ts us) :
    List.Forall₂ Token.Alike us ts := forall₂_symm (fun h => Eq.symm h) h

theorem Fault.Alike.symm {f g : Fault} (h : f.Alike g) : g.Alike f where
  cause := h.cause.symm
  trace := by
    have htrace := h.trace
    generalize f.trace = x, g.trace = y at htrace ⊢
    cases htrace with
    | none => exact .none
    | some h => exact .some (forall₂_symm (fun h => Eq.symm h) h)

theorem Action.Alike.symm {a b : Action} (h : a.Alike b) : b.Alike a := by
  cases h with
  | primitive p => exact .primitive p
  | body h => exact .body (Token.forall₂_alike_symm h)

theorem Word.Alike.symm {w w' : Word} (h : w.Alike w') : w'.Alike w :=
  ⟨h.name.symm, h.action.symm, h.description.symm, h.signature.symm⟩

theorem Machine.Alike.refl (m : Machine) : m.Alike m where
  config := rfl
  data := rfl
  returns := rfl
  radix := rfl
  words := List.forall₂_same.mpr fun w _ => w.alike_refl
  memory := rfl
  calls := List.forall₂_same.mpr fun _ _ => rfl
  streams := List.forall₂_same.mpr fun _ _ => List.forall₂_same.mpr fun _ _ => rfl
  frames := rfl
  depth := rfl

theorem Machine.Alike.symm {m m' : Machine} (h : m.Alike m') : m'.Alike m where
  config := h.config.symm
  data := h.data.symm
  returns := h.returns.symm
  radix := h.radix.symm
  words := forall₂_symm Word.Alike.symm h.words
  memory := h.memory.symm
  calls := forall₂_symm (fun h => Eq.symm h) h.calls
  streams := forall₂_symm Token.forall₂_alike_symm h.streams
  frames := h.frames.symm
  depth := h.depth.symm

theorem Word.Alike.discreet {w w' : Word} (h : w.Alike w') (hw : w.action ≠ .primitive .report) :
    w'.action ≠ .primitive .report := by
  intro hw'
  have haction := h.action
  rw [hw'] at haction
  generalize w.action = a at haction hw
  cases haction
  exact hw rfl

theorem Machine.Alike.discreet {m m' : Machine} (hm : m.Alike m') (h : m.dictionary.Discreet) :
    m'.dictionary.Discreet := by
  have hwords := hm.words
  unfold Dictionary.Discreet at h ⊢
  generalize m.dictionary.words = ws, m'.dictionary.words = ws' at h hwords ⊢
  induction hwords with
  | nil => simp
  | cons hw _ ih =>
    rw [List.forall_mem_cons] at h ⊢
    exact ⟨hw.discreet h.1, ih h.2⟩

theorem Statement.Feed.Alike.symm {feed feed' : Feed} (h : feed.Alike feed') : feed'.Alike feed := by
  refine forall₂_symm (fun h => ?_) h
  cases h with
  | ok h => exact .ok h.symm
  | error h => exact .error h.symm

theorem Token.renderAll_alike {ts us : List Token} (h : List.Forall₂ Token.Alike ts us) :
    Token.renderAll ts = Token.renderAll us := by
  have hmap (ts : List Token) : (ts.map fun t => t.render ++ " ") =
      (ts.map (·.lexeme)).map fun lexeme => lexeme.render ++ " " := by
    rw [List.map_map]
    rfl
  rw [Token.renderAll, Token.renderAll, hmap, hmap, Token.forall₂_alike_iff.mp h]

theorem Word.Alike.render_eq {w w' : Word} (h : w.Alike w') : w.render = w'.render := by
  have haction := h.action
  simp only [Word.render, h.name]
  generalize w.action = a, w'.action = b at haction ⊢
  cases haction with
  | primitive p => rfl
  | body h => simp only [Token.renderAll_alike h]

theorem Word.Alike.listingLine_eq {w w' : Word} (h : w.Alike w') (width : Nat) :
    w.listingLine width = w'.listingLine width := by
  have hprimitive : w.isPrimitive = w'.isPrimitive := by
    have haction := h.action
    simp only [Word.isPrimitive]
    generalize w.action = a, w'.action = b at haction ⊢
    cases haction <;> rfl
  simp only [Word.listingLine, h.name, hprimitive, h.signature, h.description]

namespace Dictionary

variable {words words' : List Word} (h : List.Forall₂ Word.Alike words words')

include h

theorem newest_alike : List.Forall₂ Word.Alike (newest words) (newest words') := by
  induction h with
  | nil => exact .nil
  | cons hw _ ih =>
    refine .cons hw (List.rel_filter (fun v v' hv => ?_) ih)
    simp [hv.name, hw.name]

theorem render_alike : (⟨words⟩ : Dictionary).render = (⟨words'⟩ : Dictionary).render := by
  have hvisible := List.rel_reverse (newest_alike h)
  have hwidth : nameWidth (newest words).reverse = nameWidth (newest words').reverse := by
    simp only [nameWidth]
    congr 1
    rw [← List.forall₂_eq_eq_eq, List.forall₂_map_left_iff, List.forall₂_map_right_iff]
    exact hvisible.imp fun _ _ hw => by rw [hw.name]
  have hlines : (newest words).reverse.map (Word.listingLine (nameWidth (newest words).reverse)) =
      (newest words').reverse.map (Word.listingLine (nameWidth (newest words').reverse)) := by
    rw [hwidth, ← List.forall₂_eq_eq_eq, List.forall₂_map_left_iff, List.forall₂_map_right_iff]
    exact hvisible.imp fun _ _ hw => hw.listingLine_eq _
  simp only [render, visible, hlines, hvisible.length_eq]

theorem get?_alike (name : String) :
    Option.Rel Word.Alike ((⟨words⟩ : Dictionary).get? name) ((⟨words'⟩ : Dictionary).get? name) := by
  simp only [get?]
  induction h with
  | nil => exact .none
  | @cons w w' ws ws' hw _ ih =>
    simp only [List.find?_cons, hw.name]
    split
    · exact .some hw
    · exact ih

theorem before_alike (name : String) : List.Forall₂ Word.Alike
    ((⟨words⟩ : Dictionary).before name) ((⟨words'⟩ : Dictionary).before name) := by
  simp only [before]
  apply List.forall₂_drop
  induction h with
  | nil => exact .nil
  | @cons w w' ws ws' hw hws ih =>
    simp only [List.dropWhile_cons, hw.name]
    split
    · exact ih
    · exact .cons hw hws

end Dictionary

theorem Stack.listing_eq {s s' : Stack} (h : s.cells = s'.cells) (radix : Nat) :
    s.listing radix = s'.listing radix := by
  simp only [Stack.listing, Stack.render, h]

namespace Locations

/-- Alike machines in the course of a run, which have printed the same. -/
structure Rel (m m' : Machine) : Prop where
  alike : m.Alike m'
  output : m.output = m'.output
  discreet : m.dictionary.Discreet

theorem Rel.withData {m m' : Machine} (hm : Rel m m') {data data' : Stack}
    (h : data.cells = data'.cells) : Rel { m with data := data } { m' with data := data' } :=
  ⟨{ hm.alike with data := h }, hm.output, hm.discreet⟩

theorem Rel.withReturns {m m' : Machine} (hm : Rel m m') {returns returns' : Stack}
    (h : returns.cells = returns'.cells) :
    Rel { m with returns := returns } { m' with returns := returns' } :=
  ⟨{ hm.alike with returns := h }, hm.output, hm.discreet⟩

theorem Rel.withWords {m m' : Machine} (hm : Rel m m') {words words' : List Word}
    (h : List.Forall₂ Word.Alike words words') (hdiscreet : (⟨words⟩ : Dictionary).Discreet) :
    Rel { m with dictionary := ⟨words⟩ } { m' with dictionary := ⟨words'⟩ } :=
  ⟨{ hm.alike with words := h }, hm.output, hdiscreet⟩

theorem Rel.written {m m' : Machine} (hm : Rel m m') (text : String) :
    Rel { m with output := m.output ++ text } { m' with output := m'.output ++ text } :=
  ⟨{ hm.alike with }, congrArg (· ++ text) hm.output, hm.discreet⟩

def coupling : Coupling where
  rel := Rel
  token := Token.Alike
  tokens := List.Forall₂ Token.Alike
  fault := Fault.Alike
  lost _ := False
  nested := List.Forall₂ TokenStream.Alike
  lexeme h := h
  raised h _ := ⟨rfl, .some h.alike.calls⟩
  streams h := h.alike.streams
  streamed hrest hss := .cons hrest hss
  restreamed h hss := ⟨{ h.alike with streams := hss }, h.output, h.discreet⟩
  exhausted := .nil
  scanned v _ _ h := v.scanFrom_related id 0 h

theorem front {ts us : List Token} (h : coupling.tokens ts us) : coupling.Front ts us :=
  .of_forall₂ id h

theorem inStep_pop : coupling.InStep Eq pop pop := by
  rintro outer outer' m m' ⟨hm, hat⟩
  simp only [Machine.pop, Stack.pop?, hm.alike.data]
  cases m'.data.cells with
  | nil => exact .failed ⟨coupling.raised hm _, hm, hat⟩
  | cons c rest => exact .done ⟨rfl, hm.withData rfl, hat⟩

theorem inStep_popReturn : coupling.InStep Eq popReturn popReturn := by
  rintro outer outer' m m' ⟨hm, hat⟩
  simp only [Machine.popReturn, Stack.pop?, hm.alike.returns]
  cases m'.returns.cells with
  | nil => exact .failed ⟨coupling.raised hm _, hm, hat⟩
  | cons c rest => exact .done ⟨rfl, hm.withReturns rfl, hat⟩

theorem inStep_popMany (n : Nat) : coupling.InStep Eq (popMany n) (popMany n) := by
  rintro outer outer' m m' ⟨hm, hat⟩
  simp only [Machine.popMany, Stack.popMany?, Stack.depth, hm.alike.data]
  by_cases hn : n ≤ m'.data.cells.length
  · simp only [hn, if_true]
    exact .done ⟨rfl, hm.withData rfl, hat⟩
  · simp only [hn, if_false]
    exact .failed ⟨coupling.raised hm _, hm, hat⟩

/-- What two alike machines agree on is read off them in step. -/
theorem inStep_read {α : Type} {f : Machine → α} (h : ∀ m m', Rel m m' → f m = f m') :
    coupling.InStep Eq (Exec.read f) (Exec.read f) :=
  fun _ _ m m' hm => .done ⟨h m m' hm.1, hm⟩

theorem inStep_write (text : String) : coupling.InStep Eq (write text) (write text) :=
  fun _ _ _ _ hm => .done ⟨rfl, hm.1.written text, hm.2⟩

theorem inStep_plain {E : Effect → Prop} {α : Type} {act : Exec α} (h : Plain E act) :
    coupling.InStep Eq act act := by
  induction h with
  | pure a => exact Coupling.inStep_pure rfl
  | raise cause => exact Coupling.inStep_raise cause
  | bind _ _ ih ihnext =>
    refine .bind ih fun a b hab => ?_
    rw [hab]
    exact ihnext b
  | push c =>
    exact fun _ _ _ _ hm => .done ⟨rfl, hm.1.withData (congrArg (c :: ·) hm.1.alike.data), hm.2⟩
  | pop => exact inStep_pop
  | popMany n => exact inStep_popMany n
  | top =>
    rintro outer outer' m m' ⟨hm, hat⟩
    simp only [Machine.top, Stack.top?, hm.alike.data]
    split
    · exact .done ⟨rfl, hm, hat⟩
    · exact .failed ⟨coupling.raised hm _, hm, hat⟩
  | depth => exact inStep_read fun m m' hm => congrArg List.length hm.alike.data
  | listing =>
    refine inStep_read fun m m' hm => ?_
    rw [hm.alike.radix, Stack.listing_eq hm.alike.data]
  | clear => exact fun _ _ _ _ hm => .done ⟨rfl, hm.1.withData rfl, hm.2⟩
  | pushReturn c =>
    exact fun _ _ _ _ hm =>
      .done ⟨rfl, hm.1.withReturns (congrArg (c :: ·) hm.1.alike.returns), hm.2⟩
  | popReturn => exact inStep_popReturn
  | topReturn =>
    rintro outer outer' m m' ⟨hm, hat⟩
    simp only [Machine.topReturn, Stack.top?, hm.alike.returns]
    split
    · exact .done ⟨rfl, hm, hat⟩
    · exact .failed ⟨coupling.raised hm _, hm, hat⟩
  | clearReturn => exact fun _ _ _ _ hm => .done ⟨rfl, hm.1.withReturns rfl, hm.2⟩
  | listingReturn =>
    refine inStep_read fun m m' hm => ?_
    rw [hm.alike.radix, Stack.listing_eq hm.alike.returns]
  | radix => exact inStep_read fun m m' hm => hm.alike.radix
  | setRadix r =>
    rintro outer outer' m m' ⟨hm, hat⟩
    unfold Machine.setRadix
    split
    · exact .done ⟨rfl, ⟨{ hm.alike with radix := rfl }, hm.output, hm.discreet⟩, hat⟩
    · exact .failed ⟨coupling.raised hm _, hm, hat⟩
  | write text => exact inStep_write text
  | words => exact inStep_read fun m m' hm => Dictionary.render_alike hm.alike.words
  | store address value =>
    rintro outer outer' m m' ⟨hm, hat⟩
    have hmemory : m.memory.store address value = m'.memory.store address value := by
      rw [hm.alike.memory]
    exact .done ⟨rfl, ⟨{ hm.alike with memory := hmemory }, hm.output, hm.discreet⟩, hat⟩
  | fetch address =>
    rintro outer outer' m m' ⟨hm, hat⟩
    simp only [Machine.fetch, hm.alike.memory]
    split
    · exact .done ⟨rfl, hm, hat⟩
    · exact .failed ⟨coupling.raised hm _, hm, hat⟩

theorem follows_addWord {w w' : Word} (hw : w.Alike w') (hdiscreet : w.action ≠ .primitive .report) :
    coupling.Follows (addWord w) (addWord w') := by
  rintro outer outer' m m' ⟨hm, hat⟩
  refine .done ⟨trivial, hm.withWords (.cons hw hm.alike.words) ?_, hat⟩
  exact List.forall_mem_cons.mpr ⟨hdiscreet, hm.discreet⟩

theorem follows_forgetWord (name : String) :
    coupling.Follows (forgetWord name) (forgetWord name) := by
  rintro outer outer' m m' ⟨hm, hat⟩
  have hget := Dictionary.get?_alike hm.alike.words name
  have hbefore := Dictionary.before_alike hm.alike.words name
  simp only [forgetWord, Dictionary.forget?]
  generalize m.dictionary.get? name = o, m'.dictionary.get? name = o' at hget ⊢
  cases hget with
  | none => exact .failed ⟨coupling.raised hm _, hm, hat⟩
  | some hw =>
    refine .done ⟨trivial, hm.withWords hbefore fun w hw => hm.discreet w ?_, hat⟩
    exact List.dropWhile_subset _ (List.drop_subset 1 _ hw)

theorem inStep_findWord (name : String) :
    coupling.InStep (fun w w' => w.render = w'.render) (findWord name) (findWord name) := by
  rintro outer outer' m m' ⟨hm, hat⟩
  have hget := Dictionary.get?_alike hm.alike.words name
  simp only [findWord]
  generalize m.dictionary.get? name = o, m'.dictionary.get? name = o' at hget ⊢
  cases hget with
  | none => exact .failed ⟨coupling.raised hm _, hm, hat⟩
  | some hw => exact .done ⟨hw.render_eq, hm, hat⟩

theorem follows_primitive {p : Primitive} (hp : p ≠ .report) (hflow : ∀ word, p ≠ .flow word)
    (r r' : Runner) (n n' : Nat) : coupling.Follows (p.run r n) (p.run r' n') := by
  rw [p.run_eq hflow r' r n' n]
  have hplain (hread : p.readsTokens = false) : coupling.Follows (p.run r n) (p.run r n) :=
    (inStep_plain (p.plain hread r n)).imp fun _ _ _ => trivial
  cases p with
  | flow word => exact absurd rfl (hflow word)
  | report => exact absurd rfl hp
  | storage word =>
    cases word with
    | declare =>
      apply (Coupling.frontStep_declare _).inStep front
      intro m m' name hm
      have hmemory : (m.memory.allocate name).2 = (m'.memory.allocate name).2 := by
        rw [hm.alike.memory]
      exact ⟨{ hm.alike with memory := hmemory }, hm.output, hm.discreet⟩
    | constant =>
      apply (Coupling.frontStep_constant inStep_pop _).inStep front
      intro t u name _ _ value
      exact follows_addWord ⟨rfl, .primitive _, rfl, rfl⟩ (by simp)
    | store | fetch => exact hplain rfl
  | listing word =>
    cases word with
    | forget => exact (Coupling.frontStep_forget follows_forgetWord).inStep front
    | see =>
      have hwrite (text : String) : coupling.Follows (write text) (write text) :=
        (inStep_write text).imp fun _ _ _ => trivial
      exact (Coupling.frontStep_see hwrite inStep_findWord).inStep front
    | words => exact hplain rfl
  | control word =>
    cases word with
    | abort => exact (Coupling.frontStep_abort inStep_pop).inStep front
    | _ => exact hplain rfl
  | _ => exact hplain rfl

theorem meaning_related {m m' : Machine} (hm : Rel m m') (name : String) :
    Meaning.Related (List.Forall₂ Token.Alike) (· ≠ .report) (m.meaning name) (m'.meaning name) := by
  have hget := Dictionary.get?_alike hm.alike.words name
  have hfound (w : Word) (hw : m.dictionary.get? name = some w) : w.action ≠ .primitive .report :=
    hm.discreet w (List.mem_of_find?_eq_some hw)
  -- variables and numbers are the same on both machines, and words are found in the same place
  simp only [meaning, hm.alike.memory, hm.alike.radix]
  split
  · exact .address _
  · change Option.Rel Word.Alike (m.dictionary.get? name) (m'.dictionary.get? name) at hget
    generalize m.dictionary.get? name = o, m'.dictionary.get? name = o' at hget hfound ⊢
    cases hget with
    | none =>
      dsimp only
      split
      · exact .number _
      · exact .unknown
    | @some w w' hw =>
      have hreport := hfound w rfl
      have haction := hw.action
      generalize ha : w.action = a, ha' : w'.action = a' at haction
      cases haction with
      | primitive p => exact .primitive hw.name ha ha' fun hp => hreport (hp ▸ ha)
      | body h => exact .body hw.name ha ha' h

def simulation : Simulation where
  toCoupling := coupling
  primitive := (· ≠ .report)
  substituted h indices := substituteFrom_related id (fun _ _ => rfl) indices 0 h
  front := front
  leave h := by simp only [Fault.isLeave, h.cause]
  lost_leave _ h := h.elim
  frames h := h.alike.frames
  returns h := congrArg List.length h.alike.returns
  meaning h _ _ := meaning_related h _
  shallow h hlimit := by rwa [← h.alike.config, ← h.alike.depth]
  tooDeep h hlimit _ := .inr (by rw [← h.alike.config, ← h.alike.depth]; exact ⟨hlimit, rfl⟩)
  located h _ := ⟨{ h.alike with }, h.output, h.discreet⟩
  looped h _ := ⟨{ h.alike with frames := rfl }, h.output, h.discreet⟩
  called h _ _ := ⟨{ h.alike with calls := .cons rfl h.alike.calls }, h.output, h.discreet⟩
  uncalled h := by
    have hcalls := List.forall₂_drop 1 h.alike.calls
    rw [List.drop_one, List.drop_one] at hcalls
    exact ⟨{ h.alike with calls := hcalls }, h.output, h.discreet⟩
  entered h _ :=
    have hframes := congrArg ([] :: ·) h.alike.frames
    have hdepth := congrArg (· + 1) h.alike.depth
    ⟨{ h.alike with frames := hframes, depth := hdepth }, h.output, h.discreet⟩
  exited h _ :=
    have hframes := congrArg List.tail h.alike.frames
    have hdepth := congrArg (· - 1) h.alike.depth
    ⟨{ h.alike with frames := hframes, depth := hdepth }, h.output, h.discreet⟩
  pushed h c := h.withData (congrArg (c :: ·) h.alike.data)
  written h text := h.written text
  cleared h _ := .inr (h.withData rfl)
  returnsCleared h := h.withReturns rfl
  popped := inStep_pop
  run := follows_primitive

structure Resting (m m' : Machine) : Prop where
  alike : m.Alike m'
  discreet : m.dictionary.Discreet

theorem Rel.resting {m m' : Machine} (h : Rel m m') : Resting m m' := ⟨h.alike, h.discreet⟩

theorem runs_define {ts us : List Token} (h : List.Forall₂ Token.Alike ts us) :
    simulation.Runs (define ts) (define us) := by
  cases h with
  | nil => exact relates_raise fun m m' hm => ⟨coupling.raised hm _, hm⟩
  | @cons t u ts us ht hts =>
    simp only [define, show t.lexeme = u.lexeme from ht]
    split
    · next name _ =>
      refine relates_update fun m m' hm => hm.withWords (.cons ?_ hm.alike.words) ?_
      · exact ⟨rfl, .body hts, rfl, rfl⟩
      · exact List.forall_mem_cons.mpr ⟨by simp, hm.discreet⟩
    · intro m m' hm
      have hlocated := simulation.located hm ht
      exact .failed ⟨coupling.raised hlocated _, hlocated⟩

theorem runs_carryOut {n k : Nat} (hn : n ≤ k) {s s' : Statement} (hs : s.Alike s') :
    simulation.Runs (carryOut n s) (carryOut k s') := by
  cases hs with
  | declaration h => exact runs_define h
  | expression h =>
    have hrun := Simulation.runs_runTokens (S := simulation) hn h
    refine Relates.onFault hrun (fun f m g m' hf => simulation.leave hf.1) fun f m g m' hf _ => ?_
    exact .inr ⟨hf.1, hf.2.withData rfl⟩

abbrev Concur {α : Type} (act act' : Exec α) : Prop :=
  Relates (fun _ => False) Resting (fun a m b m' => a = b ∧ Resting m m')
    (fun f m g m' => f.Alike g ∧ Resting m m') act act'

theorem concur_runResult {n k : Nat} (hn : n ≤ k) {r r' : Except Fault Statement}
    (h : Agrees Fault.Alike Statement.Alike r r') : Concur (runResult n r) (runResult k r') := by
  cases h with
  | error hf =>
    exact fun m m' hm => .failed ⟨hf, { hm.alike with data := rfl }, hm.discreet⟩
  | ok hs =>
    have htake : Relates (fun _ => False) Resting (fun _ m _ m' => Rel m m')
        (fun f m g m' => f.Alike g ∧ Resting m m') takeOutput takeOutput :=
      fun m m' hm => .done ⟨{ hm.alike with }, rfl, hm.discreet⟩
    refine .bind htake fun _ _ => .bind ((runs_carryOut hn hs).imp_fail ?_) fun _ _ m m' hm => ?_
    · exact fun f m g m' hf => ⟨hf.1, hf.2.resting⟩
    · exact .done ⟨hm.output, { hm.alike with }, hm.discreet⟩

theorem concur_runResults {n k : Nat} (hn : n ≤ k) {rs rs' : List (Except Fault Statement)}
    (h : List.Forall₂ (Agrees Fault.Alike Statement.Alike) rs rs') :
    Concur (runResults n rs) (runResults k rs') :=
  relates_runResults (h.imp fun _ _ hr => concur_runResult hn hr)

theorem concur_process {n k : Nat} (hn : n ≤ k) {path path' text text' : String}
    (h : Statement.Feed.Alike (lex path text) (lex path' text')) :
    Concur (process n path text) (process k path' text') :=
  concur_runResults hn (Statement.drain_alike h)

end Locations

/-- Both runs are done with the same value, or both failed with alike faults, and the machines they
leave behind are alike. -/
inductive Outcome.Alike {α : Type} : Outcome α → Outcome α → Prop
  | done (a : α) {m m' : Machine} (hm : m.Alike m') : Alike (.done a m) (.done a m')
  | failed {f g : Fault} {m m' : Machine} (hf : f.Alike g) (hm : m.Alike m') :
    Alike (.failed f m) (.failed g m')

theorem Outcome.Alike.symm {α : Type} {o o' : Outcome α} (h : o.Alike o') : o'.Alike o := by
  cases h with
  | done a hm => exact .done a hm.symm
  | failed hf hm => exact .failed hf.symm hm.symm

theorem Outcome.Alike.ne_unfinished {α : Type} {o o' : Outcome α} (h : o.Alike o') :
    o' ≠ .unfinished := by
  cases h <;> simp

theorem Locations.alike_of_concur {α : Type} {act act' : Exec α} (h : Concur act act')
    {m m' : Machine} (hm : Resting m m') (hend : act m ≠ .unfinished) :
    (act m).Alike (act' m') := by
  have ho := h m m' hm
  generalize act m = o, act' m' = o' at ho hend ⊢
  cases ho with
  | done h =>
    obtain ⟨rfl, h⟩ := h
    exact .done _ h.alike
  | failed h => exact .failed h.1 h.2.alike
  | lost h => exact h.elim
  | unfinished => exact absurd rfl hend

/-- The primitive that prints where execution stands is not in the catalog. -/
theorem Dictionary.Standard.discreet {d : Dictionary} (h : d.Standard) : d.Discreet := by
  have hcatalog : ∀ e ∈ Catalog.words, e.action ≠ .primitive .report := by decide +kernel
  intro w hw hreport
  rcases h w hw .report hreport with ⟨value, hvalue⟩ | ⟨e, he, -, haction⟩
  · rw [hreport] at hvalue
    cases hvalue
  · exact hcatalog e he haction

namespace Machine

/-- No source text gets hold of that primitive. -/
theorem Reachable.discreet {config : Config} {m : Machine} (h : Reachable config m) :
    m.dictionary.Discreet := h.kept.2.2.discreet

theorem process_alike_of_le {n k : Nat} (hn : n ≤ k) {m m' : Machine} (hm : m.Alike m')
    (hdiscreet : m.dictionary.Discreet) {path path' text text' : String}
    (htext : Statement.Feed.Alike (lex path text) (lex path' text'))
    (hend : process n path text m ≠ .unfinished) :
    (process n path text m).Alike (process k path' text' m') :=
  Locations.alike_of_concur (Locations.concur_process hn htext) ⟨hm, hdiscreet⟩ hend

/-- On alike machines alike sources come to an end together, and then with alike outcomes. -/
theorem process_alike {m m' : Machine} {path path' text text' : String} (hm : m.Alike m')
    (hdiscreet : m.dictionary.Discreet)
    (htext : Statement.Feed.Alike (lex path text) (lex path' text')) :
    ((∃ n, process n path text m ≠ .unfinished) ↔ ∃ n, process n path' text' m' ≠ .unfinished) ∧
    ∀ n k, process n path text m ≠ .unfinished → process k path' text' m' ≠ .unfinished →
      (process n path text m).Alike (process k path' text' m') := by
  have hdiscreet' := hm.discreet hdiscreet
  refine ⟨⟨?_, ?_⟩, fun n k hn hk => ?_⟩
  · rintro ⟨n, hn⟩
    exact ⟨n, (process_alike_of_le (Nat.le_refl n) hm hdiscreet htext hn).ne_unfinished⟩
  · rintro ⟨n, hn⟩
    exact ⟨n, (process_alike_of_le (Nat.le_refl n) hm.symm hdiscreet' htext.symm hn).ne_unfinished⟩
  · -- the run with more steps follows the one with fewer, whichever that is
    rcases Nat.le_total n k with hnk | hkn
    · exact process_alike_of_le hnk hm hdiscreet htext hn
    · exact (process_alike_of_le hkn hm.symm hdiscreet' htext.symm hk).symm

private def moved : Machine :=
  { bare {} with
    location := some ⟨"other", 3, 4⟩
    output := "left over"
    data := ⟨[], 2⟩ }

/-- A word that divides by zero, in a source that is written in another way on another machine. -/
theorem process_alike_division :
    ∃ f g m₁ m₁',
      process 12 "first" ": INVERSE 0 / ; 5 INVERSE 7" (bare {}) = .failed f m₁ ∧
      process 15 "second" ":INVERSE\n0\t/\n; 5\n  INVERSE 7\n" moved = .failed g m₁' ∧
      f.Alike g ∧ m₁.Alike m₁' := by
  have hmoved : (bare {}).Alike moved :=
    ⟨rfl, rfl, rfl, rfl, List.forall₂_same.mpr fun w _ => w.alike_refl, rfl, .nil, .nil, rfl, rfl⟩
  have htext : Statement.Feed.Alike (lex "first" ": INVERSE 0 / ; 5 INVERSE 7")
      (lex "second" ":INVERSE\n0\t/\n; 5\n  INVERSE 7\n") :=
    lex_alike_of_lexemes [.colon, .word "INVERSE", .number 0, .word "/", .semicolon, .number 5,
      .word "INVERSE", .number 7] (by decide +kernel) (by decide +kernel)
  have halike := (process_alike hmoved (bare_standard {}).discreet htext).2 12 15
    (by decide +kernel) (by decide +kernel)
  have hfailed : (process 12 "first" ": INVERSE 0 / ; 5 INVERSE 7" (bare {})).isDone = false := by
    decide +kernel
  generalize process 12 "first" ": INVERSE 0 / ; 5 INVERSE 7" (bare {}) = o,
    process 15 "second" ":INVERSE\n0\t/\n; 5\n  INVERSE 7\n" moved = o' at halike hfailed ⊢
  cases halike with
  | done a hm => cases hfailed
  | failed hf hm => exact ⟨_, _, _, _, rfl, rfl, hf, hm⟩

end Machine

end TokenForth

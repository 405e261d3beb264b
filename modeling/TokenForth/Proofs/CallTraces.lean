import TokenForth.Proofs.Stray

/-!
# What the trace of a fault tells

The trace of a fault lists the calls that were open when it was met. Each of them was made by a
token of the list that was run then. Blocks are cut out of the list that holds them, so what a
control word runs still consists of tokens of the statement, or of the body of the defined word that
was called last.
-/
namespace TokenForth

open Exec Machine

namespace Machine

def Invocation.call (i : Invocation) : Call := ⟨i.word.name, i.location⟩

def Invocation.IsIn (i : Invocation) (tokens : List Token) : Prop :=
  ∃ t ∈ tokens, t.lexeme = .word i.word.name ∧ t.location = i.location

theorem Invocation.IsIn.of_stems {i : Invocation} {tokens body : List Token} (h : i.IsIn body)
    (hbody : Stems tokens body) : i.IsIn tokens := by
  obtain ⟨t, ht, hname, hlocation⟩ := h
  refine ⟨t, (hbody t ht).resolve_right ?_, hname, hlocation⟩
  rintro ⟨value, hvalue⟩
  rw [hname] at hvalue
  cases hvalue

/-- The run of a list goes through the execution of a word, to which the name in the list was bound
then. -/
structure Invokes (n : Nat) (tokens : List Token) (m : Machine) (i : Invocation) (start : Machine) :
    Prop where
  token : i.IsIn tokens
  binding : start.meaning i.word.name = .word i.word
  underway : Underway (streamEntered tokens m) start
  consulted : Consults (fun invoke => runListVia invoke n tokens) (Invocation.run (runTokens n)) m i
    start

section Streams

variable {invoke : Invocation → Exec Unit}

/-- What the next token of a stream does, whatever the words do. -/
inductive StreamStep (m : Machine) : Prop
  | done {m₁ : Machine}
    (h : ∀ (invoke : Invocation → Exec Unit) n, runStreamVia invoke (n + 1) m = .done () m₁)
  | stray {t : Token} {m₁ : Machine} (ht : t ∈ m.rest)
    (h : ∀ (invoke : Invocation → Exec Unit) n, runStreamVia invoke (n + 1) m =
      .failed ⟨.strayLexeme t.lexeme, some t.location, some m.calls⟩ m₁)
  | pass {m₁ : Machine} (hm : Underway m m₁)
    (h : ∀ (invoke : Invocation → Exec Unit) n,
      runStreamVia invoke (n + 1) m = runStreamVia invoke n m₁)
  | call {t : Token} {w : Word} {m₁ : Machine} (ht : t ∈ m.rest) (hname : t.lexeme = .word w.name)
    (hw : m₁.meaning w.name = .word w) (hm : Underway m m₁)
    (h : ∀ (invoke : Invocation → Exec Unit) n, runStreamVia invoke (n + 1) m =
      (invoke ⟨n, t.location, w⟩ >>= fun _ => runStreamVia invoke n) m₁)

theorem streamStep {m : Machine} (hm : m.streams ≠ []) : StreamStep m := by
  obtain ⟨s, outer, hs⟩ := List.exists_cons_of_ne_nil hm
  obtain ⟨_ | ⟨⟨lexeme, location⟩, rest⟩⟩ := s
  · cases m
    cases hs
    exact .done fun _ _ => rfl
  have ht : ⟨lexeme, location⟩ ∈ m.rest := by simp [Machine.rest, hs]
  have htaken : Underway m (m.withRest rest) :=
    keeps_withRest hs (List.suffix_cons ⟨lexeme, location⟩ rest)
  have hm₁ : Underway m (located location (m.withRest rest)) := htaken.trans (keeps_location _ _)
  have hnext := runStreamVia_cons hs
  cases lexeme with
  | quote text => exact .pass (hm₁.trans (write_keeps text _)) hnext
  | comment text => exact .pass hm₁ hnext
  | number value => exact .pass (hm₁.trans (push_keeps value _)) hnext
  | colon | semicolon => exact .stray ht hnext
  | word name =>
    have hmeaning (invoke : Invocation → Exec Unit) (n : Nat) : runStreamVia invoke (n + 1) m =
        runMeaning invoke n location name (runStreamVia invoke n)
          ((located location (m.withRest rest)).meaning name) (located location (m.withRest rest)) :=
      hnext invoke n
    generalize located location (m.withRest rest) = m₁ at hm₁ hmeaning
    cases hw : m₁.meaning name with
    | address value | number value =>
      rw [hw] at hmeaning
      exact .pass (hm₁.trans (push_keeps value _)) hmeaning
    | word w =>
      rw [hw] at hmeaning
      obtain ⟨-, rfl⟩ := Dictionary.get?_eq_some (meaning_eq_word hw)
      exact .call ht rfl hw hm₁ hmeaning
    | unknown =>
      rw [hw] at hmeaning
      exact .done hmeaning

/-- How a stream fails: at a token that cannot be executed, or with a word that it calls. It does not
come to an end if that word does not. -/
inductive StreamFails (invoke : Invocation → Exec Unit) (n : Nat) (m : Machine) (f : Fault) : Prop
  | stray {t : Token} (ht : t ∈ m.rest)
    (hf : f = ⟨.strayLexeme t.lexeme, some t.location, some m.calls⟩)
  | word {i : Invocation} {start left : Machine} (hi : i.IsIn m.rest)
    (hbinding : start.meaning i.word.name = .word i.word) (hstart : Underway m start)
    (hfailed : invoke i start = .failed f left)
    (hwait : runStreamVia (answering invoke i start .unfinished) n m = .unfinished)

theorem StreamFails.of_later {n : Nat} {m m₁ : Machine} {f : Fault} (h : StreamFails invoke n m₁ f)
    (hm : Underway m m₁)
    (hrun : ∀ invoke' : Invocation → Exec Unit, (∀ i, Exec.Below (invoke' i) (invoke i)) →
      runStreamVia invoke' (n + 1) m = .unfinished ∨
        runStreamVia invoke' (n + 1) m = runStreamVia invoke' n m₁) :
    StreamFails invoke (n + 1) m f := by
  cases h with
  | stray ht hf => exact .stray (hm.rest_suffix.subset ht) (by rw [hf, hm.calls])
  | @word i start left hi hbinding hstart hfailed hwait =>
    obtain ⟨t, ht, hname⟩ := hi
    refine .word ⟨t, hm.rest_suffix.subset ht, hname⟩ hbinding (hm.trans hstart) hfailed ?_
    exact (hrun _ (answering_below invoke i start)).elim id fun heq => heq.trans hwait

theorem streamFails_of_failed (hinvoke : ∀ i, Always Later (invoke i)) {n : Nat} {m m' : Machine}
    {f : Fault} (hm : m.streams ≠ []) (h : runStreamVia invoke n m = .failed f m') :
    StreamFails invoke n m f := by
  induction n generalizing m with
  | zero => cases h
  | succ n ih =>
    cases streamStep hm with
    | done hstep => cases (hstep invoke n).symm.trans h
    | stray ht hstep =>
      cases (hstep invoke n).symm.trans h
      exact .stray ht rfl
    | pass hm₁ hstep =>
      have hrest := (hstep invoke n).symm.trans h
      exact (ih (hm₁.streams_ne_nil hm) hrest).of_later hm₁ fun invoke' _ => .inr (hstep invoke' n)
    | @call t w m₁ ht hname hw hm₁ hstep =>
      rcases bind_eq_failed ((hstep invoke n).symm.trans h) with hword | ⟨_, m₂, hword, hrest⟩
      · refine .word ⟨t, ht, hname, rfl⟩ hw hm₁ hword ?_
        rw [hstep]
        simp [Bind.bind, answering]
      · have hm₂ := hinvoke ⟨n, t.location, w⟩ m₁
        rw [hword] at hm₂
        have hm₂ := hm₁.trans hm₂.underway
        refine (ih (hm₂.streams_ne_nil hm) hrest).of_later hm₂ fun invoke' hbelow => ?_
        -- the word waits already, or it ends as before
        rw [hstep]
        rcases hbelow ⟨n, t.location, w⟩ m₁ with hword' | hword'
        · left
          simp only [Bind.bind, hword']
        · right
          simp only [Bind.bind, hword', hword]

end Streams

/-- A list that fails calls a word that fails, or meets a token that cannot be executed. -/
theorem list_failed {n : Nat} {tokens : List Token} {m m' : Machine} {f : Fault}
    (h : runTokens (n + 1) tokens m = .failed f m') :
    (∃ i start left, Invokes n tokens m i start ∧ i.run (runTokens n) start = .failed f left) ∨
    ∃ t ∈ tokens, f = ⟨.strayLexeme t.lexeme, some t.location, some m.calls⟩ := by
  obtain ⟨m₁, hlist, -⟩ := onFault_eq_failed h
  obtain ⟨m₂, hstream, -⟩ := after_eq_failed hlist
  have hinvoke (i : Invocation) : Always Later (i.run (runTokens n)) :=
    runWord_later (runTokens_restored n) i.steps i.location i.word
  cases streamFails_of_failed hinvoke (List.cons_ne_nil _ _) hstream with
  | stray ht hf => exact .inr ⟨_, ht, hf⟩
  | @word i start left hi hbinding hstart hfailed hwait =>
    have hlist : runListVia (answering (Invocation.run (runTokens n)) i start .unfinished) n tokens
        m = .unfinished := by
      change Exec.onFault (Exec.after (runStreamVia _ n) streamExited) _ cleared
        (streamEntered tokens m) = _
      simp only [Exec.onFault, Exec.after, hwait]
    exact .inl ⟨i, start, left, ⟨hi, hbinding, hstart, .of_unfinished hlist h⟩, hfailed⟩

/-- A word that is executed goes through a run of a list that fails with the fault. -/
structure Descends (n : Nat) (i : Invocation) (m : Machine) (f : Fault) (body : List Token)
    (start : Machine) : Prop where
  opens : i.word.Opens (callEntered i.call m) body start
  consulted : Consults (fun runner => i.run runner) (runTokens n) m body start
  failed : ∃ left, runTokens n body start = .failed f left

/-- A word that fails runs a list that fails, or it raises the fault itself. -/
theorem word_failed {n : Nat} {i : Invocation} {m m' : Machine} {f : Fault} (hm : m.streams ≠ [])
    (h : i.run (runTokens n) m = .failed f m') :
    (∃ body start, Descends n i m f body start) ∨ f.trace = some (i.call :: m.calls) := by
  rcases traces_runWord (runTokens_restored n) hm i.steps i.location i.word f m' h with
    hown | ⟨body, start, left, hopens, hrun, hwait⟩
  · exact .inr hown.trace
  · exact .inl ⟨body, start, hopens, .of_unfinished hwait h, left, hrun⟩

/-- The invocations that lead to a fault, outermost first: each is made by the list that the one
before it runs, and no further word or list fails with the fault. -/
inductive Trail (f : Fault) : Nat → List Token → Machine → List Invocation → Prop
  /-- The list meets the fault at one of its own tokens. -/
  | stray {n : Nat} {tokens : List Token} {m left : Machine} {t : Token} (ht : t ∈ tokens)
    (hf : f.cause = .strayLexeme t.lexeme) (hfailed : runTokens (n + 1) tokens m = .failed f left)
    (hown : ∀ i start left, Invokes n tokens m i start →
      i.run (runTokens n) start ≠ .failed f left) : Trail f (n + 1) tokens m []
  /-- A word that the list calls raises the fault. -/
  | raised {n : Nat} {tokens : List Token} {m start left : Machine} {i : Invocation}
    (hinvokes : Invokes n tokens m i start) (hfailed : i.run (runTokens n) start = .failed f left)
    (hown : ∀ body inner, ¬ Descends n i start f body inner) : Trail f (n + 1) tokens m [i]
  /-- A word that the list calls runs a list that fails. -/
  | nested {n : Nat} {tokens body : List Token} {m start inner left : Machine} {i : Invocation}
    {trail : List Invocation} (hinvokes : Invokes n tokens m i start)
    (hfailed : i.run (runTokens n) start = .failed f left)
    (hdescends : Descends n i start f body inner) (htrail : Trail f n body inner trail) :
    Trail f (n + 1) tokens m (i :: trail)

/-- The tokens among which the next call is found: the body of the last defined word of a trail, or
the tokens of the statement before any defined word. -/
def scope (tokens : List Token) : List Invocation → List Token
  | [] => tokens
  | i :: trail =>
    match i.word.action with
    | .body body => scope body trail
    | .primitive _ => scope tokens trail

theorem scope_body {i : Invocation} {body : List Token} (h : i.word.action = .body body)
    (tokens : List Token) (trail : List Invocation) :
    scope tokens (i :: trail) = scope body trail := by
  rw [scope, h]

theorem scope_primitive {i : Invocation} {p : Primitive} (h : i.word.action = .primitive p)
    (tokens : List Token) (trail : List Invocation) :
    scope tokens (i :: trail) = scope tokens trail := by
  rw [scope, h]

theorem stems_scope {tokens body : List Token} (h : Stems tokens body) (trail : List Invocation) :
    Stems (scope tokens trail) (scope body trail) := by
  induction trail with
  | nil => exact h
  | cons i trail ih =>
    cases haction : i.word.action with
    | body list =>
      rw [scope_body haction, scope_body haction]
      exact .of_subset (List.Subset.refl _)
    | primitive p =>
      rw [scope_primitive haction, scope_primitive haction]
      exact ih

theorem scope_cons (tokens : List Token) (i : Invocation) (trail : List Invocation) :
    scope tokens (i :: trail) = scope (scope tokens [i]) trail := by
  cases haction : i.word.action with
  | body list => rw [scope_body haction, scope_body haction, scope]
  | primitive p => rw [scope_primitive haction, scope_primitive haction, scope]

/-- The words that run blocks, under their names. -/
def openers : List (String × Flow) := [("IF", .conditional), ("DO", .counted), ("BEGIN", .repeated)]

/-- The word runs token lists: it is a defined word, or one that runs blocks. -/
def RunsLists (w : Word) : Prop :=
  (∃ body, w.action = .body body) ∨
    ∃ flow, (w.name, flow) ∈ openers ∧ w.action = .primitive (.flow flow)

theorem opener_of_standard {d : Dictionary} (h : d.Standard) {w : Word} (hw : w ∈ d.words)
    {flow : Flow} (haction : w.action = .primitive (.flow flow)) (hflow : flow ≠ .leave) :
    (w.name, flow) ∈ openers := by
  have hcatalog : ∀ e ∈ Catalog.words, ∀ entry ∈ openers,
      e.action = .primitive (.flow entry.2) → e.name = entry.1 := by decide +kernel
  obtain ⟨name, hname⟩ : ∃ name, (name, flow) ∈ openers := by
    cases flow with
    | leave => exact absurd rfl hflow
    | _ => simp [openers]
  rcases h w hw _ haction with ⟨value, hvalue⟩ | ⟨e, he, hename, heaction⟩
  · rw [haction] at hvalue
    cases hvalue
  · rwa [← hename, hcatalog e he _ hname heaction]

/-- Every call of a trail is made by a token in its scope, and all but the last are calls of words
that run token lists. -/
def Grounded (tokens : List Token) (trail : List Invocation) : Prop :=
  ∀ outer i inner, trail = outer ++ i :: inner →
    i.IsIn (scope tokens outer) ∧ (inner ≠ [] → RunsLists i.word)

theorem grounded_nil (tokens : List Token) : Grounded tokens [] := by
  intro outer i inner h
  simp at h

theorem Grounded.cons {tokens : List Token} {i : Invocation} {trail : List Invocation}
    (hi : i.IsIn tokens) (hruns : trail ≠ [] → RunsLists i.word)
    (htrail : Grounded (scope tokens [i]) trail) : Grounded tokens (i :: trail) := by
  intro outer j inner h
  cases outer with
  | nil =>
    cases h
    exact ⟨hi, hruns⟩
  | cons k outer =>
    obtain ⟨rfl, rfl⟩ := List.cons_eq_cons.mp h
    rw [scope_cons]
    exact htrail outer j inner rfl

theorem Grounded.of_stems {tokens body : List Token} {trail : List Invocation}
    (h : Grounded body trail) (hbody : Stems tokens body) : Grounded tokens trail := by
  intro outer i inner hsplit
  obtain ⟨hi, hruns⟩ := h outer i inner hsplit
  exact ⟨hi.of_stems (stems_scope hbody outer), hruns⟩

/-- The dictionary is standard if all that is new in it are constants. -/
theorem standard_of_words {d d' : Dictionary} (h : d.Standard)
    (hwords : ∀ w ∈ d'.words, w ∈ d.words ∨ w.IsConstant) : d'.Standard := fun w hw p hp =>
  (hwords w hw).elim (fun hold => h w hold p hp) .inl

/-- The list that a word runs is called by the word, and what it calls is in the scope of the word. -/
theorem Descends.step {n : Nat} {tokens body : List Token} {m start inner : Machine} {i : Invocation}
    {f : Fault} (h : Descends n i start f body inner) (hinvokes : Invokes n tokens m i start)
    (hm : m.dictionary.Standard) :
    inner.dictionary.Standard ∧ inner.calls = i.call :: m.calls ∧
      ∀ trail, Grounded body trail → Grounded tokens (i :: trail) := by
  have hstart := hinvokes.underway
  obtain ⟨t, ht, hname, hlocation⟩ := hinvokes.token
  have hmem := (Dictionary.get?_eq_some (meaning_eq_word hinvokes.binding)).1
  have hcall := hstart.calls_of_meaning ht hname hinvokes.binding
  have hopens := h.opens
  rw [Invocation.call, ← hlocation] at hopens
  have henters := hopens.enters hcall hmem hstart (List.Subset.refl tokens)
  refine ⟨standard_of_words hm henters.words, ?_, fun trail htrail => ?_⟩
  · rw [henters.calls, hlocation]
    rfl
  · rcases henters.level with ⟨hbody, -⟩ | ⟨flow, hflow, haction, hstems, -⟩
    · refine .cons hinvokes.token (fun _ => .inl ⟨body, hbody⟩) ?_
      rwa [scope_body hbody, scope]
    · have hstandard : start.dictionary.Standard := standard_of_words hm hstart.words
      have hopener := opener_of_standard hstandard hmem haction hflow
      refine .cons hinvokes.token (fun _ => .inr ⟨flow, hopener, haction⟩) ?_
      rw [scope_primitive haction, scope]
      exact htrail.of_stems hstems

/-- A trail leads from a list to the fault that it fails with. -/
theorem exists_trail {n : Nat} {tokens : List Token} {m m' : Machine} {f : Fault}
    (hm : m.dictionary.Standard) (h : runTokens n tokens m = .failed f m') :
    ∃ trail, Trail f n tokens m trail ∧ Grounded tokens trail ∧
      f.trace = some ((trail.map Invocation.call).reverse ++ m.calls) := by
  induction n generalizing tokens m m' with
  | zero => cases h
  | succ n ih =>
    by_cases hword : ∃ i start left, Invokes n tokens m i start ∧
        i.run (runTokens n) start = .failed f left
    · obtain ⟨i, start, left, hinvokes, hfailed⟩ := hword
      by_cases hlist : ∃ body inner, Descends n i start f body inner
      · obtain ⟨body, inner, hdescends⟩ := hlist
        obtain ⟨left', hrun⟩ := hdescends.failed
        obtain ⟨hinner, hcalls, hstep⟩ := hdescends.step hinvokes hm
        obtain ⟨trail, htrail, hgrounded, htrace⟩ := ih hinner hrun
        refine ⟨i :: trail, .nested hinvokes hfailed hdescends htrail, hstep trail hgrounded, ?_⟩
        simp [htrace, hcalls]
      · have hstreams := hinvokes.underway.streams_ne_nil (List.cons_ne_nil _ _)
        have htrace := (word_failed hstreams hfailed).resolve_left hlist
        have hown (body : List Token) (inner : Machine) : ¬ Descends n i start f body inner :=
          fun hdescends => hlist ⟨body, inner, hdescends⟩
        refine ⟨[i], .raised hinvokes hfailed hown, .cons hinvokes.token (absurd rfl) (grounded_nil _),
          ?_⟩
        rw [htrace, hinvokes.underway.calls]
        rfl
    · obtain ⟨t, ht, hf⟩ := (list_failed h).resolve_left hword
      refine ⟨[], .stray ht (by rw [hf]) h fun i start left hinvokes hfailed =>
        hword ⟨i, start, left, hinvokes, hfailed⟩, grounded_nil tokens, ?_⟩
      rw [hf]
      rfl

theorem trace_of_mem_lex {path text : String} {f : Fault} (h : .error f ∈ lex path text) :
    f.trace = none := by
  obtain ⟨layout, cause, hlayout, hend⟩ := exists_layout text.toList
  rw [lex_eq hlayout hend path] at h
  have hfault : f ∈ layout.faults path cause := by simpa using h
  cases cause with
  | none => cases hfault
  | some cause => rw [List.mem_singleton.mp hfault]; rfl

/-- A fault of a source text has no trace. -/
theorem trace_of_mem_results {path text : String} {f : Fault}
    (h : .error f ∈ Statement.results path text) : f.trace = none := by
  obtain ⟨statements, failure, hdivision⟩ := Statement.exists_division (lex path text)
  rw [Statement.results, hdivision.drain_eq] at h
  obtain ⟨tokens, rest, hfeed, -, hhalt, -⟩ := hdivision.divided
  obtain rfl : failure = some f := by simpa using h
  cases hhalt with
  | unnamed | openDefinition => rfl
  | inDefinition | inExpression => exact trace_of_mem_lex (by rw [hfeed]; simp)

/-- A source that fails fails with one of its statements, after those before it are carried out. -/
theorem runResults_failed {n : Nat} {results : List (Except Fault Statement)} {m m' : Machine}
    {f : Fault} (h : runResults n results m = .failed f m') :
    ∃ before result after outputs start, results = before ++ result :: after ∧
      runResults n before m = .done outputs start ∧ runResult n result start = .failed f m' := by
  induction results generalizing m with
  | nil => cases h
  | cons result rest ih =>
    rcases bind_eq_failed h with hresult | ⟨output, m₁, hresult, h⟩
    · exact ⟨[], result, rest, [], m, rfl, rfl, hresult⟩
    rcases bind_eq_failed h with hrest | ⟨_, m₂, -, hpure⟩
    · obtain ⟨before, failing, after, outputs, start, hsplit, hbefore, hfailing⟩ := ih hrest
      refine ⟨result :: before, failing, after, output :: outputs, start, by rw [hsplit]; rfl, ?_,
        hfailing⟩
      simp only [runResultsVia, Bind.bind, hresult, hbefore]
      rfl
    · cases hpure

/-- The statement that fails is an expression, since the definitions of a source are all accepted. -/
theorem runStatement_failed {n : Nat} {path text : String} {s : Statement}
    (hs : .ok s ∈ Statement.results path text) {m m' : Machine} {f : Fault}
    (h : runStatement n s m = .failed f m') :
    ∃ tokens left, s = .expression tokens ∧
      runTokens n tokens { m with output := "" } = .failed f left := by
  rcases bind_eq_failed h with htake | ⟨_, m₁, htake, h⟩
  · cases htake
  cases htake
  rcases bind_eq_failed h with hcarry | ⟨_, m₂, -, htake⟩
  · cases s with
    | declaration tokens =>
      obtain ⟨_, _, _, _, _, _, hdone⟩ := carryOut_declaration hs n { m with output := "" }
      cases hdone.symm.trans hcarry
    | expression tokens =>
      obtain ⟨left, hrun, -⟩ := onFault_eq_failed hcarry
      exact ⟨tokens, left, rfl, hrun⟩
  · cases htake

/-- The trace of a fault that a source meets at a machine with nothing open is the trail that leads
from the failing statement to the fault. Each of its calls was made by a token of the statement or,
behind a call of a defined word, of the body that this name was bound to then. All calls but the
innermost are calls of defined words or of words that run blocks. -/
theorem trace_is_truthful {m : Machine} (hcalls : m.calls = []) (hwords : m.dictionary.Standard)
    {n : Nat} {path text : String} {f : Fault} {m' : Machine} {calls : List Call}
    (h : process n path text m = .failed f m') (htrace : f.trace = some calls) :
    ∃ before tokens after outputs start trail,
      Statement.results path text = before ++ .ok (.expression tokens) :: after ∧
      runResults n before m = .done outputs start ∧
      runStatement n (.expression tokens) start = .failed f m' ∧
      Trail f n tokens { start with output := "" } trail ∧
      calls.reverse = trail.map Invocation.call ∧
      ∀ outer i inner, trail = outer ++ i :: inner →
        (∃ t ∈ scope tokens outer, t.lexeme = .word i.word.name ∧ t.location = i.location) ∧
        (inner ≠ [] → (∃ body, i.word.action = .body body) ∨
          ∃ flow, (i.word.name, flow) ∈ openers ∧ i.word.action = .primitive (.flow flow)) := by
  obtain ⟨before, result, after, outputs, start, hsplit, hbefore, hfailed⟩ := runResults_failed h
  have hmem : result ∈ Statement.results path text := by simp [hsplit]
  obtain ⟨hstart, hstandard⟩ : start.calls = [] ∧ start.dictionary.Standard := by
    have hsubset : before ⊆ Statement.results path text := by simp [hsplit]
    have hbetween := runResultsVia_between (runTokens_restored n) hsubset m
    have hrests := runResultsVia_rests (runTokens_restored n) before m
    rw [show runResultsVia (runTokens n) before m = _ from hbefore] at hbetween hrests
    exact ⟨hbetween.calls.trans hcalls, hrests.standard hwords⟩
  cases result with
  | error g =>
    cases hfailed
    rw [trace_of_mem_results hmem] at htrace
    cases htrace
  | ok s =>
    obtain ⟨tokens, left, rfl, hrun⟩ := runStatement_failed hmem hfailed
    have hsame : { start with output := "" }.dictionary.Standard := hstandard
    obtain ⟨trail, htrail, hgrounded, hcalled⟩ := exists_trail hsame hrun
    refine ⟨before, tokens, after, outputs, start, trail, hsplit, hbefore, hfailed, htrail, ?_,
      hgrounded⟩
    obtain rfl : calls = (trail.map Invocation.call).reverse := by
      simpa [hstart] using htrace.symm.trans hcalled
    exact List.reverse_reverse _

private def openCalls : List Call :=
  [⟨"DROP", ⟨"f", 1, 9⟩⟩, ⟨"A", ⟨"f", 1, 29⟩⟩, ⟨"IF", ⟨"f", 1, 27⟩⟩, ⟨"DO", ⟨"f", 1, 22⟩⟩,
    ⟨"W", ⟨"f", 1, 43⟩⟩]

/-- The trace leads through two defined words, and in the first of them through two blocks. -/
theorem trace_is_truthful_nested :
    ∃ f m' tokens start trail,
      process 20 "f" ": A DROP ; : W 2 0 DO I IF A THEN LOOP ; W" (bare {}) = .failed f m' ∧
      f.cause = .underflow ∧ Trail f 20 tokens start trail ∧
      trail.map Invocation.call = openCalls.reverse ∧ Grounded tokens trail := by
  obtain ⟨m', hrun⟩ : ∃ m', process 20 "f" ": A DROP ; : W 2 0 DO I IF A THEN LOOP ; W" (bare {}) =
      .failed ⟨.underflow, some ⟨"f", 1, 9⟩, some openCalls⟩ m' :=
    Outcome.exists_failed (by decide +kernel)
  obtain ⟨-, tokens, -, -, start, trail, -, -, -, htrail, hcalls, hgrounded⟩ :=
    trace_is_truthful rfl (bare_standard {}) hrun rfl
  exact ⟨_, _, tokens, _, trail, hrun, rfl, htrail, hcalls.symm, hgrounded⟩

end Machine

end TokenForth

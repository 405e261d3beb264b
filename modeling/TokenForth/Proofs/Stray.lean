import TokenForth.Proofs.Origins
import TokenForth.Proofs.Sources

/-!
# Tokens that do not belong

A definition keeps the colons that its body holds, and an expression keeps semicolons that no colon
precedes. Such a token is not found before it is to be executed, and then the machine calls it an
internal fault. No other fault of this kind can be met.
-/
namespace TokenForth

open Exec Machine

namespace Machine

/-- What is kept while statements of a source are carried out: nothing more is open, and what is
gained are constants and words without semicolons in their bodies. -/
structure Between (m m' : Machine) : Prop where
  calls : m'.calls = m.calls
  depth : m'.depth = m.depth
  words : ∀ w ∈ m'.dictionary.words, w ∈ m.dictionary.words ∨ w.IsConstant ∨
    ∃ body, w.action = .body body ∧ ∀ t ∈ body, t.lexeme ≠ .semicolon

theorem Between.refl (m : Machine) : Between m m := ⟨rfl, rfl, fun _ hw => .inl hw⟩

theorem Between.trans {m m₁ m₂ : Machine} (h : Between m m₁) (h' : Between m₁ m₂) :
    Between m m₂ :=
  ⟨h'.calls.trans h.calls, h'.depth.trans h.depth, fun w hw => (h'.words w hw).elim (h.words w) .inr⟩

instance : IsPreorder Machine Between where
  refl := .refl
  trans _ _ _ := .trans

theorem Keeps.between {F : List (List Cell) → List (List Cell) → Prop} {m m' : Machine}
    (h : Keeps F m m') : Between m m' :=
  ⟨h.calls, h.depth, fun w hw => (h.words w hw).imp_right .inl⟩

theorem define_between {path text : String} {tokens : List Token}
    (h : .ok (.declaration tokens) ∈ Statement.results path text) : Always Between (define tokens) := by
  obtain ⟨parts, hformed, -⟩ := Statement.formed_of_mem_drain h
  cases hformed with
  | @declaration _ first _ name body _ hfirst hbody =>
    simp only [define, hfirst]
    refine always_update fun m => ⟨rfl, rfl, fun w hw => ?_⟩
    rcases List.mem_cons.mp hw with rfl | hw
    · exact .inr (.inr ⟨body, rfl, hbody⟩)
    · exact .inl hw

theorem takeOutput_between : Always Between takeOutput :=
  fun _ => ⟨rfl, rfl, fun _ hw => .inl hw⟩

theorem fault_between {α : Type} (f : Fault) :
    Always Between (clear >>= fun _ => (fail f : Exec α)) :=
  .bind (always_update fun _ => ⟨rfl, rfl, fun _ hw => .inl hw⟩) fun _ => always_fail f

theorem cleared_between (m : Machine) : Between m m.cleared := ⟨rfl, rfl, fun _ hw => .inl hw⟩

def keptBetween (path text : String) : SourceWalk Exec Exec where
  toPairing := alwaysPairing Between
  occurs result := result ∈ Statement.results path text
  takeOutput := takeOutput_between
  fault _ := fault_between _
  define := define_between

theorem runResultsVia_between {r : Runner} (hr : ∀ tokens, Always Restored (r tokens))
    {path text : String} {results : List (Except Fault Statement)}
    (h : results ⊆ Statement.results path text) : Always Between (runResultsVia r results) := by
  have hrun : (keptBetween path text).rel (runResultsVia r results) (runResultsVia r results) := by
    refine (keptBetween path text).run (fun {tokens} _ => ?_) h
    apply Always.onFault ((hr tokens).imp fun _ _ h => h.between)
    exact fun m m' h => h.trans (cleared_between m')
  exact hrun

/-- A source fails with a fault of its text, or because one of its expressions fails. -/
def tracedSources (path text : String) (r : Runner) (m₀ : Machine) :
    SourceWalk (Varied Runner) (Varied Runner) where
  toPairing := tracing (fun f => .error f ∈ Statement.results path text)
    (fun tokens start => .ok (.expression tokens) ∈ Statement.results path text ∧ Between m₀ start)
    Between r m₀
  occurs result := result ∈ Statement.results path text
  takeOutput := traced_safe takeOutput_between fun _ => rfl
  fault h m hm := tracedAt_const (fault_between _) hm <| by
    rintro _ _ ⟨⟩
    exact h
  define h := traced_safe (define_between h) (fault?_define h)

theorem traces_source {r : Runner} (hr : ∀ tokens, Always Restored (r tokens)) (path text : String)
    (m : Machine) :
    Traces (fun f => .error f ∈ Statement.results path text)
      (fun tokens start => .ok (.expression tokens) ∈ Statement.results path text ∧ Between m start)
      (fun r => runResultsVia r (Statement.results path text)) r m := by
  have hrun : (tracedSources path text r m).rel
      (runResultsVia (fun tokens r => r tokens) (Statement.results path text))
      (runResultsVia (fun tokens r => r tokens) (Statement.results path text)) := by
    refine (tracedSources path text r m).run (fun {tokens} htokens m₁ hm₁ => ?_) fun _ h => h
    have hlist := (hr tokens).imp fun _ _ h => h.between
    exact (tracedAt_run hlist hm₁ ⟨htokens, hm₁⟩).onFault _ cleared_between
  rw [Varied.results_eq] at hrun
  exact (hrun m (.refl m)).traces

def Sealed (m : Machine) : Prop :=
  ∀ w ∈ m.dictionary.words, ∀ body, w.action = .body body → ∀ t ∈ body, t.lexeme ≠ .semicolon

theorem Between.sealed {m m' : Machine} (h : Between m m') (hm : m.Sealed) : m'.Sealed := by
  intro w hw body hbody
  rcases h.words w hw with hold | ⟨value, hvalue⟩ | ⟨body', hbody', hnone⟩
  · exact hm w hold body hbody
  · rw [hvalue] at hbody
    cases hbody
  · rw [hbody'] at hbody
    cases hbody
    exact hnone

theorem process_between (n : Nat) (path text : String) : Always Between (process n path text) := by
  exact runResultsVia_between (runTokens_restored n) (List.Subset.refl _)

theorem Reachable.sealed {config : Config} {m : Machine} (h : Reachable config m) : m.Sealed := by
  induction h with
  | new =>
    have hbare : (bare config).Sealed := fun w hw body hbody => absurd hbody (bare_ne_body hw body)
    exact new_of_prelude ((process_between _ _ _ _).imp fun m hm => hm.sealed hbare)
  | next n path text _ hrun ih => exact ((process_between n path text _).of_leaves hrun).sealed ih

/-- Inside of the run of a token list another list is run that meets a token which cannot be
executed. The calls that are open then are those which were open when the inner list was started. -/
structure Strays (n : Nat) (tokens : List Token) (m : Machine) (k : Nat) (inner : List Token)
    (last : Machine) (t : Token) (f : Fault) : Prop where
  inside : Inside n tokens m k inner last
  failed : ∃ left, runTokens k inner last = .failed f left
  token : t ∈ inner
  lexeme : t.lexeme = .colon ∨ t.lexeme = .semicolon
  fault : f = ⟨.strayLexeme t.lexeme, some t.location, some last.calls⟩

/-- Inside of the run of a token list the body of a defined word is run, since the word was called. -/
structure Active (n : Nat) (tokens : List Token) (m : Machine) (w : Word) (k : Nat)
    (body : List Token) (start : Machine) : Prop where
  inside : Inside n tokens m k body start
  action : w.action = .body body
  word : w ∈ start.dictionary.words
  call : ∃ location, start.calls.head? = some ⟨w.name, location⟩

/-- Where an internal fault is met: in tokens of the list itself on the level of the list, or in
tokens of the body of a word, on the level of that body. -/
theorem strays_of_internal {n : Nat} {tokens : List Token} {m m' : Machine} {f : Fault}
    (h : runTokens n tokens m = .failed f m') (hkind : f.kind = .internal) :
    ∃ k inner last t, Strays n tokens m k inner last t f ∧
      (last.depth = m.depth ∧ Stems tokens inner ∨
        ∃ w j body start, Active n tokens m w j body start ∧ w ∈ m.dictionary.words ∧
          Inside j body start k inner last ∧ m.depth < start.depth ∧ last.depth = start.depth ∧
          Stems body inner) := by
  induction n generalizing tokens m m' with
  | zero => cases h
  | succ n ih =>
    cases origin_of_failed h with
    | here hmeets =>
      cases hmeets with
      | stray ht hlexeme hf =>
        exact ⟨n + 1, tokens, m, _, ⟨.here _ _ _, ⟨m', h⟩, ht, hlexeme, hf⟩,
          .inl ⟨rfl, .of_subset (List.Subset.refl _)⟩⟩
      | word _ _ hother => exact absurd hkind hother
    | @inner t w body start left henters hconsults hrun =>
      obtain ⟨k, inner, last, u, hstrays, hlevel⟩ := ih hrun
      have hinside {j : Nat} {list : List Token} {at' : Machine} (h : Inside n body start j list at') :
          Inside (n + 1) tokens m j list at' := .there hconsults h
      have hold {v : Word} {list : List Token} (hv : v ∈ start.dictionary.words)
          (haction : v.action = .body list) : v ∈ m.dictionary.words := by
        apply (henters.words v hv).resolve_right
        rintro ⟨value, hvalue⟩
        rw [haction] at hvalue
        cases hvalue
      refine ⟨k, inner, last, u, ⟨hinside hstrays.inside, hstrays.failed, hstrays.token,
        hstrays.lexeme, hstrays.fault⟩, ?_⟩
      rcases hlevel with ⟨hdepth, hinner⟩ | ⟨v, j, list, mid, hactive, hv, hbelow, hlt, hdepth, hinner⟩
      · rcases henters.level with ⟨haction, hmem, hstart⟩ | ⟨_, -, -, hbody, hstart⟩
        · have hcall : ∃ location, start.calls.head? = some ⟨w.name, location⟩ :=
            ⟨t.location, by rw [henters.calls]; rfl⟩
          exact .inr ⟨w, n, body, start, ⟨hinside (.here _ _ _), haction, hmem, hcall⟩,
            hold hmem haction, hstrays.inside, by omega, hdepth, hinner⟩
        · exact .inl ⟨by omega, hbody.trans hinner⟩
      · have hlevel : m.depth ≤ start.depth := by
          rcases henters.level with ⟨-, -, hstart⟩ | ⟨_, -, -, -, hstart⟩ <;> omega
        exact .inr ⟨v, j, list, mid, ⟨hinside hactive.inside, hactive.action, hactive.word,
          hactive.call⟩, hold hv hactive.action, hbelow, by omega, hdepth, hinner⟩

/-- The token that is met belongs to the list that it stems from. -/
theorem Strays.mem {n k : Nat} {tokens inner outer : List Token} {m last : Machine} {t : Token}
    {f : Fault} (h : Strays n tokens m k inner last t f) (hstems : Stems outer inner) :
    t ∈ outer := by
  apply (hstems t h.token).resolve_right
  rintro ⟨value, hvalue⟩
  rcases h.lexeme with hlexeme | hlexeme <;> rw [hlexeme] at hvalue <;> cases hvalue

/-- A colon starts a definition, so no expression holds one. -/
theorem expression_ne_colon {path text : String} {tokens : List Token}
    (h : .ok (.expression tokens) ∈ Statement.results path text) :
    ∀ t ∈ tokens, t.lexeme ≠ .colon := by
  obtain ⟨parts, hformed, -⟩ := Statement.formed_of_mem_drain h
  cases hformed with
  | expression hfirst hbody => exact List.forall_mem_cons.mpr ⟨hfirst, hbody⟩

/-- Internal faults are met at stray tokens only. Definitions of a source are never rejected, a
running machine always has a stream, and what is met otherwise is a semicolon of an expression while
no defined word is active, or a colon in the body of the defined word that is active. -/
theorem internal_only_stray {config : Config} {m : Machine} (hm : Reachable config m)
    (path text : String) :
    (∀ tokens, .ok (.declaration tokens) ∈ Statement.results path text →
      ∀ start, ∃ m', define tokens start = .done () m') ∧
    ∀ n f m', process n path text m = .failed f m' →
      f.cause ≠ .noStream ∧
      (f.kind = .internal → ∃ tokens start k inner last t,
        .ok (.expression tokens) ∈ Statement.results path text ∧
        Consults (fun runner => runResultsVia runner (Statement.results path text)) (runTokens n) m
          tokens start ∧
        Strays n tokens start k inner last t f ∧
        (f.message = "Unexpected token ; in executable code." ∧ last.depth = 0 ∧
            t ∈ tokens ∧ t.lexeme = .semicolon ∨
          f.message = "Unexpected token : in executable code." ∧ 0 < last.depth ∧
            ∃ w j body mid, Active n tokens start w j body mid ∧ Inside j body mid k inner last ∧
              last.depth = mid.depth ∧ t ∈ body ∧ t.lexeme = .colon)) := by
  have hdefine : ∀ tokens, .ok (.declaration tokens) ∈ Statement.results path text →
      ∀ start, ∃ m', define tokens start = .done () m' := by
    intro tokens htokens start
    obtain ⟨_, _, w, -, -, -, hdone⟩ := carryOut_declaration htokens 0 start
    exact ⟨_, hdone⟩
  refine ⟨hdefine, fun n f m' hfailed => ?_⟩
  have htraces := traces_source (runTokens_restored n) path text m
  rcases htraces f m' hfailed with herror | ⟨tokens, start, left, ⟨hmem, hbetween⟩, hlist, hwait⟩
  · have hother : f.kind ≠ .internal := by
      have hsource := Statement.source_of_mem_results herror
      rintro hkind
      rw [hkind] at hsource
      simp [Fault.Kind.isLexical, Fault.Kind.isStructural] at hsource
    refine ⟨fun hcause => hother ?_, fun hkind => absurd hkind hother⟩
    rw [Fault.kind, hcause]
    rfl
  · have hinternal (hkind : f.kind = .internal) := strays_of_internal hlist hkind
    have hdepth : start.depth = 0 := hbetween.depth.trans hm.kept.2.1.2.2.1
    refine ⟨fun hcause => ?_, fun hkind => ?_⟩
    · obtain ⟨k, inner, last, t, hstrays, -⟩ := hinternal (by rw [Fault.kind, hcause]; rfl)
      rw [hstrays.fault] at hcause
      cases hcause
    · obtain ⟨k, inner, last, t, hstrays, hlevel⟩ := hinternal hkind
      refine ⟨tokens, start, k, inner, last, t, hmem, .of_unfinished hwait hfailed, hstrays, ?_⟩
      rcases hlevel with ⟨hlast, hstems⟩ |
        ⟨w, j, body, mid, hactive, hw, hinside, hlt, hlast, hstems⟩
      · left
        have ht := hstrays.mem hstems
        have hlexeme := hstrays.lexeme.resolve_left (expression_ne_colon hmem t ht)
        exact ⟨by rw [hstrays.fault, hlexeme]; rfl, by omega, ht, hlexeme⟩
      · right
        have ht := hstrays.mem hstems
        have hnone := hbetween.sealed hm.sealed w hw body hactive.action t ht
        have hlexeme := hstrays.lexeme.resolve_right hnone
        exact ⟨by rw [hstrays.fault, hlexeme]; rfl, by omega, w, j, body, mid, hactive, hinside,
          hlast, ht, hlexeme⟩

/-- A new machine gets a semicolon and nothing else. -/
theorem internal_only_stray_semicolon :
    ∃ f m' tokens start k inner last t,
      process 3 "f" ";" (new {}) = .failed f m' ∧
      f.message = "Unexpected token ; in executable code." ∧
      Strays 3 tokens start k inner last t f ∧ last.depth = 0 ∧ t ∈ tokens ∧
      t.lexeme = .semicolon := by
  have hresults : Statement.results "f" ";" =
      [.ok (.expression [⟨.semicolon, ⟨"f", 1, 2⟩⟩])] := by decide +kernel
  have hrun (m : Machine) : ∃ m', process 3 "f" ";" m =
      .failed ⟨.strayLexeme .semicolon, some ⟨"f", 1, 2⟩, some m.calls⟩ m' := by
    rw [process, hresults]
    exact ⟨_, rfl⟩
  obtain ⟨m', hfailed⟩ := hrun (new {})
  obtain ⟨tokens, start, k, inner, last, t, -, -, hstrays, hsemicolon | hcolon⟩ :=
    ((internal_only_stray .new "f" ";").2 3 _ m' hfailed).2 rfl
  · exact ⟨_, m', tokens, start, k, inner, last, t, hfailed, hsemicolon.1, hstrays, hsemicolon.2⟩
  · exact absurd hcolon.1 (by decide)

end Machine

end TokenForth

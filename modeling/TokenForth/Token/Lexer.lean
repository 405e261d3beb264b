import TokenForth.Fault
import TokenForth.Reader

/-!
# From characters to tokens

A lexer gives out the tokens of a source one at a time. Colons, semicolons and parentheses are
tokens of one character wherever a token starts, `."` opens a quotation, and every other token is a
run of characters up to a separator. A lexer that meets a fault gives it out and then stops.
-/
namespace TokenForth

/-- The characters between tokens. -/
def isSeparator (c : Char) : Bool := c = ' ' || c = '\t' || c = '\r' || c = '\n'

/-- A run of characters is a number if it reads as a decimal cell, and a word otherwise. -/
def Lexeme.ofRun (run : List Char) : Lexeme :=
  match Numeral.literal? run with
  | some value => .number value
  | none => .word (String.ofList run)

namespace Reader

/-- Takes text up to and with the character `stop`; without it the cause `missing` arises. -/
def enclosed (r : Reader) (stop : Char) (build : String → Lexeme) (missing : Fault.Cause) :
    Except Fault Token × Reader :=
  let (text, r) := r.takeWhile (· ≠ stop)
  match r.next with
  | (some _, r) => (.ok ⟨build (String.ofList text), r.location⟩, r)
  | (none, r) => (.error (.atSource missing r.location), r)

/-- Takes the token that starts with the next character `c`. -/
def token (r : Reader) (c : Char) : Except Fault Token × Reader :=
  match c with
  | ':' => let r := r.next.2; (.ok ⟨.colon, r.location⟩, r)
  | ';' => let r := r.next.2; (.ok ⟨.semicolon, r.location⟩, r)
  | '(' => r.next.2.enclosed ')' .comment .openComment
  | ')' => let r := r.next.2; (.error (.atSource .strayParenthesis r.location), r)
  | c =>
    let (second, r) := if c = '.' then r.peek 1 else (none, r)
    if second = some '"' then (r.skip 2).enclosed '"' .quote .openQuote
    else
      let (run, r) := r.takeWhile (fun d => !isSeparator d)
      (.ok ⟨.ofRun run, r.location⟩, r)

@[simp] theorem rest_takeWhile (p : Char → Bool) (r : Reader) :
    (r.takeWhile p).2.rest = r.rest.dropWhile p := by
  simp only [takeWhile, rest_skip]
  induction r.rest with
  | nil => rfl
  | cons c cs ih => by_cases h : p c <;> simp [h, ih]

theorem length_rest_enclosed (r : Reader) (stop : Char) (build : String → Lexeme)
    (missing : Fault.Cause) : (r.enclosed stop build missing).2.rest.length ≤ r.rest.length := by
  have h : ((r.takeWhile (· ≠ stop)).2.next.2).rest.length ≤ r.rest.length := by
    rw [rest_next, rest_takeWhile, List.length_tail]
    exact Nat.le_trans (Nat.sub_le _ _) (List.dropWhile_sublist _).length_le
  revert h
  simp only [enclosed]
  rcases (r.takeWhile (· ≠ stop)).2.next with ⟨_ | c, r'⟩ <;> exact id

/-- A token takes at least the character it starts with. -/
theorem length_rest_token (r : Reader) (c : Char) (cs : List Char) (h : r.rest = c :: cs)
    (hc : isSeparator c = false) : (r.token c).2.rest.length < r.rest.length := by
  have tail : r.next.2.rest = cs := by rw [rest_next, h]; rfl
  have skipped : (r.next.2.rest).length < r.rest.length := by rw [tail, h]; simp
  have run (s : Reader) (hs : s.rest = r.rest) :
      (s.takeWhile (fun d => !isSeparator d)).2.rest.length < r.rest.length := by
    rw [rest_takeWhile, hs, h, List.dropWhile_cons_of_pos (by simp [hc])]
    exact Nat.lt_succ_of_le (List.dropWhile_sublist _).length_le
  unfold token
  split
  · exact skipped
  · exact skipped
  · exact Nat.lt_of_le_of_lt (length_rest_enclosed _ _ _ _) skipped
  · exact skipped
  · by_cases dot : c = '.'
    · simp only [dot, if_true]
      split
      · refine Nat.lt_of_le_of_lt (length_rest_enclosed _ _ _ _) ?_
        rw [rest_skip, rest_peek, h, List.length_drop]
        simp only [List.length_cons]
        omega
      · exact run _ (rest_peek 1 r)
    · simp only [dot, if_false, reduceCtorEq]
      exact run r rfl

end Reader

/-- The state of reading tokens; a lexer that has met a fault is stopped. -/
structure Lexer where
  reader : Reader
  stopped : Bool := false

namespace Lexer

def ofText (path text : String) : Lexer := ⟨Reader.ofText path text, false⟩

def next (l : Lexer) : Option (Except Fault Token) × Lexer :=
  if l.stopped then (none, l)
  else
    let r := (l.reader.takeWhile isSeparator).2
    match r.peek 0 with
    | (none, r) => (none, ⟨r, false⟩)
    | (some c, r) =>
      match r.token c with
      | (.ok t, r) => (some (.ok t), ⟨r, false⟩)
      | (.error f, r) => (some (.error f), ⟨r, true⟩)

/-- What is left to give out: nothing once stopped. -/
def size (l : Lexer) : Nat := if l.stopped then 0 else l.reader.rest.length + 1

theorem size_next_lt (l : Lexer) (result : Except Fault Token) (h : l.next.1 = some result) :
    l.next.2.size < l.size := by
  revert h
  unfold next
  split
  · intro h; cases h
  · next running =>
    have hsize : l.size = l.reader.rest.length + 1 := by simp [size, running]
    have hskip : (l.reader.takeWhile isSeparator).2.rest.length ≤ l.reader.rest.length := by
      rw [Reader.rest_takeWhile]; exact (List.dropWhile_sublist _).length_le
    rw [hsize]
    dsimp only
    split
    · intro h; cases h
    · next c r hpeek =>
      have hrest : r.rest = (l.reader.takeWhile isSeparator).2.rest := by
        rw [← Reader.rest_peek 0 (l.reader.takeWhile isSeparator).2, hpeek]
      have hhead : r.rest.head? = some c := by
        rw [hrest, List.head?_eq_getElem?, ← Reader.peek_fst, hpeek]
      obtain ⟨cs, hcs⟩ : ∃ cs, r.rest = c :: cs := by
        cases hr : r.rest with
        | nil => simp [hr] at hhead
        | cons d ds => simp [hr] at hhead; exact ⟨ds, by rw [hhead]⟩
      have hc : isSeparator c = false := by
        have hd := List.head?_dropWhile_not isSeparator l.reader.rest
        rw [← Reader.rest_takeWhile, ← hrest, hhead] at hd
        simpa using hd
      have hlt := r.length_rest_token c cs hcs hc
      rw [hrest] at hlt
      split
      · next t s htoken =>
        intro _
        rw [htoken] at hlt
        simp only [size, Bool.false_eq_true, if_false] at hlt ⊢
        omega
      · intro _
        simp [size]

def drain (l : Lexer) : List (Except Fault Token) × Lexer :=
  match h : l.next with
  | (none, last) => ([], last)
  | (some result, following) =>
    have _ : following.size < l.size := by
      have shorter := l.size_next_lt result (by rw [h])
      rwa [h] at shorter
    let (more, last) := following.drain
    (result :: more, last)
termination_by l.size

end Lexer

/-- The results of a list up to the first fault: all of them, or that fault. -/
def collect {α : Type} : List (Except Fault α) → Except Fault (List α)
  | [] => .ok []
  | .error f :: _ => .error f
  | .ok a :: rest => (collect rest).map (a :: ·)

def lex (path text : String) : List (Except Fault Token) := (Lexer.ofText path text).drain.1

def tokenize (path text : String) : Except Fault (List Token) := collect (lex path text)

end TokenForth

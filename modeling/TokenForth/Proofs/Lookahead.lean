import TokenForth.Proofs.Positions

/-!
# Looking ahead

A reader keeps what it has looked at in a queue, apart from the characters it has not touched yet.
Nobody who asks it can tell: it replies like a place in the list of the characters, whatever is asked
and in whatever order, and its location is told by the characters in front of that place. Only taking
a character moves the place.
-/
namespace TokenForth

inductive Query where
  /-- Is there a character so many places ahead? -/
  | hasNext (n : Nat)
  /-- Which character is so many places ahead? -/
  | peek (n : Nat)
  /-- Take the next character. -/
  | next
  deriving DecidableEq, Repr

inductive Reply where
  | truth (holds : Bool)
  | char (found : Option Char)
  deriving DecidableEq, Repr

namespace Query

variable {σ : Type} (reply : σ → Query → Reply × σ)

def after (s : σ) (queries : List Query) : σ := queries.foldl (fun s q => (reply s q).2) s

/-- What shows of it meanwhile: each reply, and the location after it. -/
def seen (location : σ → Location) (s : σ) : List Query → List (Reply × Location)
  | [] => []
  | q :: queries =>
    ((reply s q).1, location (reply s q).2) :: seen location (reply s q).2 queries

end Query

/-- A place in a text: in front of one of its characters, or at its end. -/
structure Cursor (text : List Char) where
  place : Nat
  place_le : place ≤ text.length

namespace Cursor

variable {text : List Char}

def start (text : List Char) : Cursor text := ⟨0, Nat.zero_le _⟩

def advance (c : Cursor text) : Cursor text :=
  if h : c.place < text.length then ⟨c.place + 1, h⟩ else c

def reply (c : Cursor text) : Query → Reply × Cursor text
  | .hasNext n => (.truth (c.place + n < text.length), c)
  | .peek n => (.char text[c.place + n]?, c)
  | .next => (.char text[c.place]?, c.advance)

def location (path : String) (c : Cursor text) : Location := .behind path (text.take c.place)

theorem place_advance (c : Cursor text) : c.advance.place = min (c.place + 1) text.length := by
  unfold advance
  split
  · next h => exact (Nat.min_eq_left h).symm
  · next h =>
    have hend : c.place = text.length := Nat.le_antisymm c.place_le (Nat.le_of_not_lt h)
    rw [hend, Nat.min_eq_right (Nat.le_succ _)]

/-- The characters in front of the next place are those in front of this one and the next one. -/
theorem take_advance (c : Cursor text) :
    text.take c.advance.place = text.take c.place ++ text[c.place]?.toList := by
  rw [place_advance, ← List.take_eq_take_min, List.take_add_one]

/-- A cursor has moved as often as characters were asked for, as far as there are so many. -/
theorem place_after (c : Cursor text) (queries : List Query) :
    (Query.after reply c queries).place = min (c.place + queries.count .next) text.length := by
  induction queries generalizing c with
  | nil => exact (Nat.min_eq_left c.place_le).symm
  | cons q queries ih =>
    have hstep := ih (c.reply q).2
    cases q with
    | hasNext n | peek n => exact hstep
    | next =>
      rw [List.count_cons_self]
      simp only [reply, place_advance] at hstep
      exact hstep.trans (by omega)

end Cursor

namespace Reader

def reply (r : Reader) : Query → Reply × Reader
  | .hasNext n => (.truth (r.hasNext n).1, (r.hasNext n).2)
  | .peek n => (.char (r.peek n).1, (r.peek n).2)
  | .next => (.char r.next.1, r.next.2)

theorem hasNext_fst (n : Nat) (r : Reader) : (r.hasNext n).1 = decide (n < r.rest.length) := by
  have hpeek : (r.hasNext n).1 = (r.peek n).1.isSome := rfl
  rw [hpeek, peek_fst, Bool.eq_iff_iff]
  simp

/-- What a reader takes is the next character, if there is one. -/
theorem takes_head? (r : Reader) : r.Takes r.rest.head?.toList r.next.2 := by
  cases h : r.rest with
  | nil =>
    rw [next_of_nil h]
    exact .refl r
  | cons c cs => exact takes_next h

/-- The reader of a text has taken the characters in front of a place, and no others. -/
def StandsAt (r : Reader) (path : String) {text : String} (c : Cursor text.toList) : Prop :=
  (ofText path text).Takes (text.toList.take c.place) r

namespace StandsAt

variable {path text : String} {c : Cursor text.toList} {r : Reader}

theorem rest (h : r.StandsAt path c) : r.rest = text.toList.drop c.place :=
  h.rest_eq (List.take_append_drop _ _).symm

theorem location (h : r.StandsAt path c) : r.location = c.location path :=
  (Takes.location h).trans (Location.after_start path _)

/-- Queries are answered from the queue and the untouched characters as from the text. -/
theorem reply_fst (h : r.StandsAt path c) (q : Query) : (r.reply q).1 = (c.reply q).1 := by
  cases q with
  | hasNext n =>
    have hlength : n < (text.toList.drop c.place).length ↔ c.place + n < text.toList.length := by
      rw [List.length_drop]
      omega
    simp only [reply, Cursor.reply, hasNext_fst, h.rest, hlength]
  | peek n => simp only [reply, Cursor.reply, peek_fst, h.rest, List.getElem?_drop]
  | next => simp only [reply, Cursor.reply, next_fst, h.rest, List.head?_drop]

/-- Looking ahead takes nothing, and a character that is taken is the one at the place. -/
theorem reply_snd (h : r.StandsAt path c) (q : Query) :
    (r.reply q).2.StandsAt path (c.reply q).2 := by
  cases q with
  | hasNext n | peek n =>
    have hlooked := Takes.trans h (takes_peek n r)
    rwa [List.append_nil] at hlooked
  | next =>
    -- at the end there is no such character, and both stay where they are
    have htaken := Takes.trans h (takes_head? r)
    rwa [h.rest, List.head?_drop, ← Cursor.take_advance] at htaken

theorem after (h : r.StandsAt path c) (queries : List Query) :
    (Query.after reply r queries).StandsAt path (Query.after Cursor.reply c queries) := by
  induction queries generalizing r c with
  | nil => exact h
  | cons q queries ih => exact ih (h.reply_snd q)

theorem seen_eq (h : r.StandsAt path c) (queries : List Query) :
    Query.seen reply Reader.location r queries =
      Query.seen Cursor.reply (Cursor.location path) c queries := by
  induction queries generalizing r c with
  | nil => rfl
  | cons q queries ih =>
    have hnext := h.reply_snd q
    simp only [Query.seen, h.reply_fst q, hnext.location, ih hnext]

end StandsAt

theorem standsAt_start (path text : String) :
    (ofText path text).StandsAt path (.start text.toList) :=
  .refl _

/-- Looking ahead cannot be seen. A reader of a text replies to all queries like a place in the list
of its characters, and stands each time at the location behind the characters in front of it. So the
location is told by how often a character was asked for, whatever else was asked in between. -/
theorem lookahead_invisible (path text : String) (queries : List Query) :
    Query.seen reply location (ofText path text) queries =
        Query.seen Cursor.reply (Cursor.location path) (.start text.toList) queries ∧
      (Query.after reply (ofText path text) queries).location =
        .behind path (text.toList.take (queries.count .next)) := by
  have hstart := standsAt_start path text
  refine ⟨hstart.seen_eq queries, ?_⟩
  have hplace := Cursor.place_after (.start text.toList) queries
  rw [(hstart.after queries).location, Cursor.location, hplace, ← List.take_eq_take_min]
  simp [Cursor.start]

example : Query.seen reply location (ofText "<test>" "a\nb")
    [.peek 2, .hasNext 3, .next, .peek 7, .next, .next, .next] =
      [(.char 'b', ⟨"<test>", 1, 1⟩), (.truth false, ⟨"<test>", 1, 1⟩), (.char 'a', ⟨"<test>", 1, 2⟩),
        (.char none, ⟨"<test>", 1, 2⟩), (.char '\n', ⟨"<test>", 2, 1⟩),
        (.char 'b', ⟨"<test>", 2, 2⟩), (.char none, ⟨"<test>", 2, 2⟩)] := by
  decide

end Reader

end TokenForth

import TokenForth.Proofs.Actions

/-!
# Taking tokens from the running stream

What the words that read names, messages and blocks do to the stream that called them, as equations
over the list of streams. Whatever they take, a part at the end of the stream is left.
-/
namespace TokenForth

namespace Machine

def withRest (rest : List Token) (m : Machine) : Machine :=
  { m with streams := ⟨rest⟩ :: m.streams.tail }

theorem withRest_eq_self {m : Machine} {rest : List Token} {outer : List TokenStream}
    (h : m.streams = ⟨rest⟩ :: outer) : m.withRest rest = m := by
  have hstreams : ⟨rest⟩ :: m.streams.tail = m.streams := by rw [h, List.tail_cons]
  rw [withRest, hstreams]

theorem streams_withRest {m : Machine} {s : TokenStream} {outer : List TokenStream}
    (h : m.streams = s :: outer) (rest : List Token) :
    (m.withRest rest).streams = ⟨rest⟩ :: outer := by
  rw [withRest, h, List.tail_cons]

theorem nextToken?_nil {m : Machine} (h : m.streams = []) : nextToken? m = .done none m := by
  simp [nextToken?, h]

theorem nextToken?_done {m : Machine} {outer : List TokenStream} (h : m.streams = ⟨[]⟩ :: outer) :
    nextToken? m = .done none m := by
  simp [nextToken?, h]

theorem nextToken?_cons {m : Machine} {t : Token} {rest : List Token} {outer : List TokenStream}
    (h : m.streams = ⟨t :: rest⟩ :: outer) : nextToken? m = .done (some t) (m.withRest rest) := by
  simp [nextToken?, withRest, h]

theorem nextName_word {m : Machine} {name : String} {location : Location} {rest : List Token}
    {outer : List TokenStream} (h : m.streams = ⟨⟨.word name, location⟩ :: rest⟩ :: outer) :
    nextName m = .done (name, location) (m.withRest rest) := by
  simp only [nextName, nextToken, Bind.bind, nextToken?_cons h]
  rfl

theorem nextMessage_nil {m : Machine} (h : m.streams = []) :
    nextMessage m = .failed (m.fault .noStream) m := by
  simp [nextMessage, stream, Bind.bind, h]

theorem nextMessage_quote {m : Machine} {text : String} {location : Location} {rest : List Token}
    {outer : List TokenStream} (h : m.streams = ⟨⟨.quote text, location⟩ :: rest⟩ :: outer) :
    nextMessage m = .done (Text.trim text) (m.withRest rest) := by
  simp only [nextMessage, stream, Bind.bind, h]
  rfl

theorem nextMessage_other {m : Machine} {s : TokenStream} {outer : List TokenStream}
    (h : m.streams = s :: outer) (hs : ∀ text location rest, s.rest ≠ ⟨.quote text, location⟩ :: rest) :
    nextMessage m = .done "" m := by
  simp only [nextMessage, stream, Bind.bind, h]
  rfl

theorem takeBlock_nil {m : Machine} (v : Vocabulary) (h : m.streams = []) :
    Flow.takeBlock v m = .failed (m.fault .noStream) m := by
  simp [Flow.takeBlock, stream, Bind.bind, h]

theorem takeBlock_some {m : Machine} {v : Vocabulary} {s : TokenStream} {outer : List TokenStream}
    {block : Block} {rest : List Token} (h : m.streams = s :: outer)
    (hs : v.scan s.rest = some (block, rest)) :
    Flow.takeBlock v m = .done block (m.withRest rest) := by
  simp only [Flow.takeBlock, stream, Bind.bind, h, hs]
  rfl

theorem takeBlock_none {m : Machine} {v : Vocabulary} {s : TokenStream} {outer : List TokenStream}
    (h : m.streams = s :: outer) (hs : v.scan s.rest = none) :
    Flow.takeBlock v m = .failed (m.fault v.unclosed) (m.withRest []) := by
  simp only [Flow.takeBlock, stream, Bind.bind, h, hs]
  rfl

end Machine

def Block.tokens (b : Block) : List Token :=
  b.first ++ b.parts.flatMap (fun part => part.1 :: part.2) ++ [b.closer]

@[simp] theorem Block.tokens_prepend (t : Token) (b : Block) :
    (b.prepend t).tokens = t :: b.tokens := rfl

@[simp] theorem Block.tokens_split (t : Token) (b : Block) :
    (b.split t).tokens = t :: b.tokens := by
  simp [tokens, split]

/-- The segments of a block are some of its tokens, and the closing word is in none of them. -/
theorem Block.segment_sublist {b : Block} {segment : List Token} (h : segment ∈ b.segments) :
    List.Sublist (segment ++ [b.closer]) b.tokens := by
  unfold tokens
  refine List.Sublist.append ?_ (List.Sublist.refl _)
  rcases List.mem_cons.mp h with rfl | h
  · exact List.sublist_append_left _ _
  · obtain ⟨part, hpart, rfl⟩ := List.mem_map.mp h
    obtain ⟨before, behind, hparts⟩ := List.append_of_mem hpart
    rw [hparts, List.flatMap_append, List.flatMap_cons]
    refine List.sublist_append_of_sublist_right (List.sublist_append_of_sublist_right ?_)
    exact List.sublist_append_of_sublist_left (List.sublist_cons_self _ _)

/-- Each segment of a block is a run of its tokens. -/
theorem Block.segment_part {b : Block} {segment : List Token} (h : segment ∈ b.segments) :
    segment <:+: b.tokens := by
  unfold tokens
  rcases List.mem_cons.mp h with rfl | h
  · rw [List.append_assoc]
    exact (List.prefix_append _ _).isInfix
  · obtain ⟨part, hpart, rfl⟩ := List.mem_map.mp h
    obtain ⟨before, behind, hparts⟩ := List.append_of_mem hpart
    rw [hparts, List.flatMap_append, List.flatMap_cons]
    exact ⟨b.first ++ before.flatMap (fun part => part.1 :: part.2) ++ [part.1],
      behind.flatMap (fun part => part.1 :: part.2) ++ [b.closer], by simp⟩

namespace Vocabulary

/-- A block that is found stands at the start of the tokens, and ends with a closing word. -/
theorem scanFrom_eq_some (v : Vocabulary) {depth : Nat} {tokens rest : List Token} {block : Block}
    (h : v.scanFrom depth tokens = some (block, rest)) :
    tokens = block.tokens ++ rest ∧ v.role block.closer = .closes := by
  fun_induction scanFrom v depth tokens generalizing block with
  | case1 => cases h
  | case3 t tokens hrole =>
    cases h
    exact ⟨rfl, hrole⟩
  | case2 t tokens depth hrole ih | case4 t tokens depth hrole ih | case5 t tokens hrole ih
  | case6 t tokens depth hrole ih | case7 t tokens depth hrole ih =>
    obtain ⟨⟨b, after⟩, hscan, heq⟩ := Option.map_eq_some_iff.mp h
    cases heq
    obtain ⟨htokens, hcloser⟩ := ih hscan
    simp only [Block.tokens_prepend, Block.tokens_split, List.cons_append]
    exact ⟨congrArg (t :: ·) htokens, hcloser⟩

end Vocabulary

end TokenForth

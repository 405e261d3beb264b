import TokenForth.Proofs.Scanning
import TokenForth.Proofs.Simulation

/-!
# Loop indices and blocks

The body of a loop is cut out by a scan, and the indices are put into it by a walk with a counter of
its own for the inner loops. The two agree: in a body that was cut out, the counter is always the
number of inner blocks that are open, by the scans that start in them. So an index is put in exactly
outside of all inner loops, and a later scan finds the same blocks as before.
-/
namespace TokenForth

namespace Vocabulary

/-- The depth behind a token, where it is never counted down below zero. -/
def stepDepth (v : Vocabulary) (depth : Nat) (t : Token) : Nat :=
  match v.role t with
  | .opens => depth + 1
  | .closes => depth - 1
  | _ => depth

def depthAfter (v : Vocabulary) (depth : Nat) (tokens : List Token) : Nat :=
  tokens.foldl v.stepDepth depth

/-- The place of the word that closes the block which the word at place `j` opens. -/
def closingPlace? (v : Vocabulary) (tokens : List Token) (j : Nat) : Option Nat :=
  (v.scan (tokens.drop (j + 1))).map fun found => j + found.1.tokens.length

/-- Whether the word at place `j` opens a block that is not closed before place `i`. -/
def isOpenAt (v : Vocabulary) (tokens : List Token) (i j : Nat) : Bool :=
  tokens[j]?.any (v.role · = .opens) && (v.closingPlace? tokens j).all (i ≤ ·)

/-- The places of the words whose blocks are open at place `i`, the outermost first. -/
def openPlaces (v : Vocabulary) (tokens : List Token) (i : Nat) : List Nat :=
  (List.range i).filter (v.isOpenAt tokens i)

/-- Tokens that lead out of `depth` inner blocks and close no other block. -/
def Balanced (v : Vocabulary) : Nat → List Token → Prop
  | depth, [] => depth = 0
  | depth, t :: rest => (v.role t = .closes → 0 < depth) ∧ v.Balanced (v.stepDepth depth t) rest

variable {v : Vocabulary} {depth i j : Nat} {t : Token} {tokens : List Token}

theorem balanced_of_scanFrom (hv : v.separators = []) {block : Block} {rest : List Token}
    (h : v.scanFrom depth tokens = some (block, rest)) :
    block.parts = [] ∧ v.Balanced depth block.first := by
  have hrole (t : Token) : v.role t ≠ .separates := by
    unfold role
    grind
  fun_induction scanFrom v depth tokens generalizing block with
  | case1 => cases h
  | case3 t tokens ht =>
    cases h
    exact ⟨rfl, rfl⟩
  | case5 t tokens ht | case6 t tokens depth ht => exact absurd ht (hrole t)
  | case2 t tokens depth ht ih | case4 t tokens depth ht ih | case7 t tokens depth ht ih =>
    obtain ⟨⟨b, after⟩, hscan, heq⟩ := Option.map_eq_some_iff.mp h
    cases heq
    obtain ⟨hparts, hbalanced⟩ := ih hscan
    exact ⟨hparts, by simp [ht], by simpa [stepDepth, ht] using hbalanced⟩

@[simp] theorem depthAfter_nil : v.depthAfter depth [] = depth := rfl

@[simp] theorem depthAfter_cons :
    v.depthAfter depth (t :: tokens) = v.depthAfter (v.stepDepth depth t) tokens := rfl

theorem depthAfter_take_succ (h : tokens[i]? = some t) :
    v.depthAfter depth (tokens.take (i + 1)) =
      v.stepDepth (v.depthAfter depth (tokens.take i)) t := by
  rw [List.take_add_one, h, depthAfter, List.foldl_append]
  rfl

theorem Balanced.depthAfter_eq (h : v.Balanced depth tokens) : v.depthAfter depth tokens = 0 := by
  induction tokens generalizing depth with
  | nil => exact h
  | cons t tokens ih => exact ih h.2

/-- A closing word is never met outside of all blocks. -/
theorem Balanced.depthAfter_pos (h : v.Balanced depth tokens) (ht : tokens[i]? = some t)
    (hrole : v.role t = .closes) : 0 < v.depthAfter depth (tokens.take i) := by
  induction tokens generalizing depth i with
  | nil => cases ht
  | cons u tokens ih =>
    cases i with
    | zero =>
      cases ht
      exact h.1 hrole
    | succ i => exact ih h.2 ht

theorem stepDepth_add_closings (h : v.role t = .closes → 0 < depth) :
    v.stepDepth depth t + v.closings [t] = depth + v.openers [t] := by
  unfold stepDepth closings openers
  cases hrole : v.role t with
  | closes => simp [hrole, Nat.sub_add_cancel (h hrole)]
  | opens | separates | plain => simp [hrole]

/-- In balanced tokens the depth is the number of opening words less that of the closing words. -/
theorem Balanced.depthAfter_add_closings (h : v.Balanced depth tokens) (i : Nat) :
    v.depthAfter depth (tokens.take i) + v.closings (tokens.take i) =
      depth + v.openers (tokens.take i) := by
  induction tokens generalizing depth i with
  | nil => simp [closings, openers]
  | cons t tokens ih =>
    cases i with
    | zero => simp [closings, openers]
    | succ i =>
      have hstep := stepDepth_add_closings h.1
      have hrest := ih h.2 i
      rw [List.take_succ_cons, depthAfter_cons, closings, openers, List.countP_cons,
        List.countP_cons]
      simp only [closings, openers, List.countP_singleton] at hstep hrest
      omega

/-- In balanced tokens a block that starts at place `a` can end at the closing words of the same
depth. -/
theorem Balanced.endsAt_drop_iff (h : v.Balanced 0 tokens) (a m : Nat) :
    v.EndsAt 0 (tokens.drop a) m ↔
      (∃ t, tokens[a + m]? = some t ∧ v.role t = .closes) ∧
        v.depthAfter 0 (tokens.take (a + m)) = v.depthAfter 0 (tokens.take a) := by
  have hstart := h.depthAfter_add_closings a
  have hend := h.depthAfter_add_closings (a + m)
  rw [EndsAt, List.getElem?_drop, Outside]
  apply and_congr_right
  intro _
  rw [List.take_add] at hend ⊢
  simp only [openers, closings, List.countP_append] at hstart hend ⊢
  omega

/-- A block is not closed before place `i` if no word before that place can end it. -/
theorem all_closingPlace?_iff :
    (v.closingPlace? tokens j).all (i ≤ ·) = true ↔
      ∀ m, j + 1 + m < i → ¬ v.EndsAt 0 (tokens.drop (j + 1)) m := by
  rw [closingPlace?, scan]
  cases hscan : v.scanFrom 0 (tokens.drop (j + 1)) with
  | none => simpa using fun m _ => not_endsAt_of_scanFrom hscan m
  | some found =>
    obtain ⟨n, hfound⟩ := exists_found hscan
    have hlength : found.1.tokens.length = n + 1 := by
      have hwhole := congrArg List.length (v.scanFrom_eq_some hscan).1
      have hlt := (List.getElem?_eq_some_iff.mp hfound.closer).1
      simp only [List.length_append, hfound.rest, List.length_drop] at hwhole hlt
      omega
    rw [Option.map_some, Option.all_some, decide_eq_true_eq, hlength]
    constructor
    · exact fun hle m hm => hfound.first m (by omega)
    · intro hearlier
      by_contra hlt
      exact hearlier n (by omega) hfound.ends

theorem isOpenAt_self :
    v.isOpenAt tokens (i + 1) i = true ↔ ∃ t, tokens[i]? = some t ∧ v.role t = .opens := by
  have hlater : (v.closingPlace? tokens i).all (i + 1 ≤ ·) = true :=
    all_closingPlace?_iff.mpr fun m hm => by omega
  rw [isOpenAt, hlater, Bool.and_true, Option.any_eq_true]
  simp only [decide_eq_true_eq]

/-- A block that is open before place `i` is open behind it, unless the word there closes it. -/
theorem Balanced.isOpenAt_succ (h : v.Balanced 0 tokens) (hj : j < i) :
    v.isOpenAt tokens (i + 1) j = true ↔
      v.isOpenAt tokens i j = true ∧
        ¬ ((∃ t, tokens[i]? = some t ∧ v.role t = .closes) ∧
          v.depthAfter 0 (tokens.take i) = v.depthAfter 0 (tokens.take (j + 1))) := by
  obtain ⟨m, rfl⟩ : ∃ m, i = j + 1 + m := ⟨i - (j + 1), by omega⟩
  rw [← h.endsAt_drop_iff]
  simp only [isOpenAt, Bool.and_eq_true, and_assoc, all_closingPlace?_iff]
  apply and_congr_right
  intro _
  constructor
  · exact fun hall => ⟨fun n hn => hall n (by omega), hall m (by omega)⟩
  · rintro ⟨hearlier, hhere⟩ n hn
    obtain rfl | hlt : n = m ∨ n < m := by omega
    · exact hhere
    · exact hearlier n (by omega)

/-- A closing word takes away the open blocks of its depth, and an opening word adds its own. -/
theorem Balanced.openPlaces_succ (h : v.Balanced 0 tokens) (ht : tokens[i]? = some t) :
    v.openPlaces tokens (i + 1) =
      (v.openPlaces tokens i).filter (fun j => ¬ (v.role t = .closes ∧
        v.depthAfter 0 (tokens.take i) = v.depthAfter 0 (tokens.take (j + 1)))) ++
      if v.role t = .opens then [i] else [] := by
  rw [openPlaces, List.range_succ, List.filter_append, openPlaces, List.filter_filter]
  congr 1
  · apply List.filter_congr
    intro j hj
    rw [Bool.eq_iff_iff, h.isOpenAt_succ (List.mem_range.mp hj), Bool.and_eq_true, and_comm]
    simp only [ht, Option.some.injEq, exists_eq_left', decide_eq_true_eq]
  · rw [List.filter_singleton, Bool.cond_eq_ite]
    exact if_congr (by simp [isOpenAt_self, ht]) rfl rfl

/-- The open blocks are those of the depths from one to the depth of the place. -/
theorem Balanced.depths_openPlaces (h : v.Balanced 0 tokens) (hi : i ≤ tokens.length) :
    (v.openPlaces tokens i).map (fun j => v.depthAfter 0 (tokens.take (j + 1))) =
      List.range' 1 (v.depthAfter 0 (tokens.take i)) := by
  induction i with
  | zero => rfl
  | succ i ih =>
    have ht := List.getElem?_eq_getElem hi
    have ih := ih (Nat.le_of_succ_le hi)
    generalize tokens[i] = t at ht
    rw [h.openPlaces_succ ht, depthAfter_take_succ ht, List.map_append]
    cases hrole : v.role t with
    | opens =>
      rw [stepDepth, hrole, List.range'_1_concat, ← ih]
      simp [depthAfter_take_succ ht, stepDepth, hrole, Nat.add_comm]
    | closes =>
      -- the closing word is inside a block, and the innermost open block is the one it takes away
      obtain ⟨depth, hdepth⟩ := Nat.exists_eq_add_one.mpr (h.depthAfter_pos ht hrole)
      have hinner : ∀ k ∈ List.range' 1 depth, decide (depth + 1 ≠ k) = true := by
        intro k hk
        have hbounds := List.mem_range'_1.mp hk
        exact decide_eq_true (by omega)
      rw [stepDepth, hrole, hdepth, Nat.add_sub_cancel]
      rw [hdepth, List.range'_1_concat] at ih
      simp only [true_and, reduceCtorEq, if_false, List.map_nil, List.append_nil]
      have hfilter := congrArg (List.filter fun k => depth + 1 ≠ k) ih
      rw [List.filter_append, List.filter_eq_self.mpr hinner, List.filter_map] at hfilter
      simpa [Function.comp_def, Nat.add_comm] using hfilter
    | separates | plain => simpa [stepDepth, hrole] using ih

theorem Balanced.length_openPlaces (h : v.Balanced 0 tokens) (hi : i ≤ tokens.length) :
    (v.openPlaces tokens i).length = v.depthAfter 0 (tokens.take i) := by
  have hlength := congrArg List.length (h.depths_openPlaces hi)
  rwa [List.length_map, List.length_range'] at hlength

/-- No block depends on which of the two tokens there is. -/
def Indistinct (v : Vocabulary) (t u : Token) : Prop :=
  t = u ∨ v.role t = .plain ∧ v.role u = .plain

theorem Indistinct.role_eq {u : Token} (h : v.Indistinct t u) : v.role t = v.role u := by
  obtain rfl | ⟨ht, hu⟩ := h
  · rfl
  · rw [ht, hu]

theorem Indistinct.eq_of_role {u : Token} (h : v.Indistinct t u) (ht : v.role t ≠ .plain) : t = u :=
  h.resolve_right fun hplain => ht hplain.1

theorem role_of_mem_separators {block : Block} {rest : List Token}
    (h : v.scanFrom depth tokens = some (block, rest)) (ht : t ∈ block.separators) :
    v.role t = .separates := by
  obtain ⟨i, hfound⟩ := exists_found h
  rw [hfound.separators, separatorsBefore, List.mem_filterMap] at ht
  obtain ⟨j, -, hj⟩ := ht
  have hfilter := (Option.filter_eq_some_iff.mp hj).2
  exact (of_decide_eq_true hfilter).1

/-- Two scans find blocks of one shape: their segments are equally long, and what separates and ends
them is the same. -/
def SameShape (p q : Block × List Token) : Prop :=
  p.1.segments.map List.length = q.1.segments.map List.length ∧
    p.1.separators = q.1.separators ∧ p.1.closer = q.1.closer ∧ p.2.length = q.2.length

theorem parts_indistinct {ps qs : List (Token × List Token)}
    (h : List.Forall₂ (fun p q => v.Indistinct p.1 q.1 ∧ List.Forall₂ v.Indistinct p.2 q.2) ps qs)
    (hrole : ∀ t ∈ ps.map (·.1), v.role t = .separates) :
    ps.map (·.1) = qs.map (·.1) ∧ ps.map (·.2.length) = qs.map (·.2.length) := by
  induction h with
  | nil => exact ⟨rfl, rfl⟩
  | @cons p q ps qs hpq _ ih =>
    simp only [List.map_cons, List.forall_mem_cons] at hrole ⊢
    obtain ⟨hseparators, hlengths⟩ := ih hrole.2
    rw [hpq.1.eq_of_role (by simp [hrole.1]), hpq.2.length_eq, hseparators, hlengths]
    exact ⟨rfl, rfl⟩

/-- Scans of tokens that are indistinct both fail, or find blocks of one shape. -/
theorem scan_indistinct {ts us : List Token} (h : List.Forall₂ v.Indistinct ts us) :
    Option.Rel SameShape (v.scan ts) (v.scan us) := by
  have hrel := v.scanFrom_sameRoles Indistinct.role_eq 0 h
  rw [scan, scan]
  generalize v.scanFrom 0 us = found' at hrel
  cases hscan : v.scanFrom 0 ts with
  | none =>
    rw [hscan] at hrel
    cases hrel
    exact .none
  | some found =>
    rw [hscan] at hrel
    cases hrel with
    | some hblocks =>
      obtain ⟨⟨hfirst, hparts, hcloser⟩, hrest⟩ := hblocks
      obtain ⟨hseparators, hlengths⟩ :=
        parts_indistinct hparts fun t ht => role_of_mem_separators hscan ht
      have hends : v.role found.1.closer = .closes := (v.scanFrom_eq_some hscan).2
      refine .some ⟨?_, hseparators, hcloser.eq_of_role (by simp [hends]), hrest.length_eq⟩
      simp only [Block.segments, List.map_cons, List.map_map, Function.comp_def, hfirst.length_eq,
        hlengths]

end Vocabulary

def indexWords : List String := ["I", "J", "K"]

theorem loopIndex?_eq_some_iff {indices : List Cell} {name : String} {index : Cell} :
    loopIndex? indices name = some index ↔
      ∃ level : Nat, indexWords[level]? = some name ∧ indices[level]? = some index := by
  constructor
  · intro h
    unfold loopIndex? at h
    split at h
    · exact ⟨0, rfl, h⟩
    · exact ⟨1, rfl, h⟩
    · exact ⟨2, rfl, h⟩
    · cases h
  · rintro ⟨level, hname, hindex⟩
    rcases level with _ | _ | _ | level
    · cases hname
      exact hindex
    · cases hname
      exact hindex
    · cases hname
      exact hindex
    · cases hname

theorem Token.withIndex_of_some {indices : List Cell} {t : Token} {index : Cell}
    (h : t.name?.bind (loopIndex? indices) = some index) :
    t.withIndex indices = ⟨.number index, t.location⟩ := by
  simp [Token.withIndex, h]

theorem Token.withIndex_of_none {indices : List Cell} {t : Token}
    (h : t.name?.bind (loopIndex? indices) = none) : t.withIndex indices = t := by
  simp [Token.withIndex, h]

open Vocabulary

/-- No block depends on the words for the indices, and none on a number. -/
theorem indistinct_withIndex {v : Vocabulary} (hv : v ∈ [conditional, counted, repeated])
    (indices : List Cell) (t : Token) : v.Indistinct t (t.withIndex indices) := by
  cases h : t.name?.bind (loopIndex? indices) with
  | none => exact .inl (Token.withIndex_of_none h).symm
  | some index =>
    rw [Token.withIndex_of_some h]
    obtain ⟨name, hname, hindex⟩ := Option.bind_eq_some_iff.mp h
    obtain ⟨level, hlevel, -⟩ := loopIndex?_eq_some_iff.mp hindex
    have hplain : ∀ name ∈ indexWords, ∀ v ∈ [conditional, counted, repeated],
        name ≠ v.opener ∧ name ∉ v.closers ∧ name ∉ v.separators := by decide
    obtain ⟨hopener, hclosers, hseparators⟩ := hplain name (List.mem_of_getElem? hlevel) v hv
    exact .inr ⟨by simp [role, hname, hopener, hclosers, hseparators], rfl⟩

theorem substituteFrom_cons (indices : List Cell) (depth : Nat) (t : Token) (rest : List Token) :
    substituteFrom indices depth (t :: rest) =
      (if depth = 0 then t.withIndex indices else t) ::
        substituteFrom indices (counted.stepDepth depth t) rest := by
  have hkeyword (h : counted.role t ≠ .plain) : t.withIndex indices = t :=
    ((indistinct_withIndex (by simp) indices t).eq_of_role h).symm
  rw [substituteFrom, stepDepth]
  cases hrole : counted.role t with
  | opens | closes => simp [hkeyword (by simp [hrole])]
  | separates | plain => rfl

theorem substituteFrom_append (indices : List Cell) (depth : Nat) (before after : List Token) :
    substituteFrom indices depth (before ++ after) =
      substituteFrom indices depth before ++
        substituteFrom indices (counted.depthAfter depth before) after := by
  induction before generalizing depth with
  | nil => rfl
  | cons t before ih =>
    rw [List.cons_append, substituteFrom_cons, ih, substituteFrom_cons, List.cons_append,
      depthAfter_cons]

theorem getElem?_substituteFrom (indices : List Cell) (depth : Nat) (tokens : List Token)
    (i : Nat) :
    (substituteFrom indices depth tokens)[i]? = tokens[i]?.map fun t =>
      if counted.depthAfter depth (tokens.take i) = 0 then t.withIndex indices else t := by
  induction tokens generalizing depth i with
  | nil => rfl
  | cons t tokens ih =>
    rw [substituteFrom_cons]
    cases i with
    | zero => rfl
    | succ i => exact ih (counted.stepDepth depth t) i

theorem substituteFrom_indistinct {v : Vocabulary} (hv : v ∈ [conditional, counted, repeated])
    (indices : List Cell) (depth : Nat) (tokens : List Token) :
    List.Forall₂ v.Indistinct tokens (substituteFrom indices depth tokens) := by
  induction tokens generalizing depth with
  | nil => exact .nil
  | cons t tokens ih =>
    rw [substituteFrom_cons]
    refine .cons ?_ (ih _)
    split
    · exact indistinct_withIndex hv indices t
    · exact .inl rfl

theorem location_withIndex (indices : List Cell) (t : Token) :
    (t.withIndex indices).location = t.location := by
  unfold Token.withIndex
  split
  · rfl
  · rfl

theorem map_location_substituteFrom (indices : List Cell) (depth : Nat) (tokens : List Token) :
    (substituteFrom indices depth tokens).map (·.location) = tokens.map (·.location) := by
  induction tokens generalizing depth with
  | nil => rfl
  | cons t tokens ih =>
    rw [substituteFrom_cons, List.map_cons, ih, List.map_cons, apply_ite Token.location,
      location_withIndex, ite_self]

/-- The token at place `i` of a body is a word for the index of the loop or of one around it, and no
inner loop is open there. -/
def NamesIndex (indices : List Cell) (body : List Token) (i : Nat) (index : Cell) : Prop :=
  ∃ (t : Token) (name : String) (level : Nat), body[i]? = some t ∧ t.lexeme = .word name ∧
    indexWords[level]? = some name ∧ indices[level]? = some index ∧
    counted.openPlaces body i = []

theorem getElem?_substitute_of_namesIndex {indices : List Cell} {body : List Token} {i : Nat}
    {index : Cell} (hbody : counted.Balanced 0 body) (h : NamesIndex indices body i index) :
    (substitute indices body)[i]? =
      body[i]?.map fun t => (⟨.number index, t.location⟩ : Token) := by
  obtain ⟨t, name, level, ht, hname, hlevel, hindex, hopen⟩ := h
  have hle : i ≤ body.length := Nat.le_of_lt (List.getElem?_eq_some_iff.mp ht).1
  have hdepth : counted.depthAfter 0 (body.take i) = 0 := by
    rw [← hbody.length_openPlaces hle, hopen, List.length_nil]
  have hsome : t.name?.bind (loopIndex? indices) = some index := by
    rw [Token.name?_eq_some_iff.mpr hname]
    exact loopIndex?_eq_some_iff.mpr ⟨level, hlevel, hindex⟩
  rw [substitute, getElem?_substituteFrom, ht, Option.map_some, Option.map_some, if_pos hdepth,
    Token.withIndex_of_some hsome]

theorem getElem?_substitute_of_not_namesIndex {indices : List Cell} {body : List Token} {i : Nat}
    (hbody : counted.Balanced 0 body) (h : ∀ index, ¬ NamesIndex indices body i index) :
    (substitute indices body)[i]? = body[i]? := by
  rw [substitute, getElem?_substituteFrom]
  cases ht : body[i]? with
  | none => rfl
  | some t =>
    have hle : i ≤ body.length := Nat.le_of_lt (List.getElem?_eq_some_iff.mp ht).1
    rw [Option.map_some, Option.some_inj, ite_eq_right_iff]
    intro hdepth
    apply Token.withIndex_of_none
    rw [Option.eq_none_iff_forall_ne_some]
    intro index hsome
    obtain ⟨name, hname, hindex⟩ := Option.bind_eq_some_iff.mp hsome
    obtain ⟨level, hlevel, hat⟩ := loopIndex?_eq_some_iff.mp hindex
    refine h index ⟨t, name, level, ht, Token.name?_eq_some_iff.mp hname, hlevel, hat, ?_⟩
    rw [← List.length_eq_zero_iff, hbody.length_openPlaces hle, hdepth]

/-- In the body of a loop, as the scan for the block cuts it out, the counter of the walk is the
number of inner loops that are open. A closing word finds it above zero, and at the end it is zero.
The walk changes the words for the indices outside of all inner loops, each to its index, where its
loop is running, and nothing else. A scan from any place finds in the result a block of the same
shape as in the body, or none as there. -/
theorem substitute_respects_blocks {tokens rest : List Token} {block : Block}
    (hscan : counted.scan tokens = some (block, rest)) (indices : List Cell) :
    block.segments = [block.first] ∧
    (∀ i ≤ block.first.length,
      (∀ after, substituteFrom indices 0 (block.first.take i ++ after) =
        substituteFrom indices 0 (block.first.take i) ++
          substituteFrom indices (counted.depthAfter 0 (block.first.take i)) after) ∧
      counted.depthAfter 0 (block.first.take i) = (counted.openPlaces block.first i).length ∧
      ∀ t, block.first[i]? = some t → counted.role t = .closes →
        0 < counted.depthAfter 0 (block.first.take i)) ∧
    counted.depthAfter 0 block.first = 0 ∧
    (substitute indices block.first).length = block.first.length ∧
    (substitute indices block.first).map (·.location) = block.first.map (·.location) ∧
    (∀ i index, NamesIndex indices block.first i index →
      (substitute indices block.first)[i]? =
        block.first[i]?.map fun t => (⟨.number index, t.location⟩ : Token)) ∧
    (∀ i, (∀ index, ¬ NamesIndex indices block.first i index) →
      (substitute indices block.first)[i]? = block.first[i]?) ∧
    ∀ v ∈ [conditional, counted, repeated], ∀ i, Option.Rel SameShape
      (v.scan (block.first.drop i)) (v.scan ((substitute indices block.first).drop i)) := by
  obtain ⟨hparts, hbody⟩ := balanced_of_scanFrom rfl hscan
  have hlocations : (substitute indices block.first).map (·.location) =
      block.first.map (·.location) := map_location_substituteFrom indices 0 block.first
  refine ⟨by simp [Block.segments, hparts], fun i hi => ⟨?_, ?_, ?_⟩, hbody.depthAfter_eq, ?_,
    hlocations, ?_, ?_, ?_⟩
  · exact substituteFrom_append indices 0 (block.first.take i)
  · exact (hbody.length_openPlaces hi).symm
  · exact fun t ht => hbody.depthAfter_pos ht
  · simpa using congrArg List.length hlocations
  · exact fun i index => getElem?_substitute_of_namesIndex hbody
  · exact fun i => getElem?_substitute_of_not_namesIndex hbody
  · intro v hv i
    exact scan_indistinct (List.forall₂_drop i (substituteFrom_indistinct hv indices 0 block.first))

/-- Two loops, one in the other and closed by different words, in the body of a loop that runs
inside one other: no index is put into them, and none for a third loop around. -/
theorem substitute_respects_blocks_mixed :
    let tokens := ["I", "IF", "J", "DO", "I", "DO", "J", "+LOOP", "LOOP", "K", "THEN", "+LOOP"].map
      fun name => (⟨.word name, {}⟩ : Token)
    let body := tokens.take 11
    (∃ block, counted.scan tokens = some (block, []) ∧ block.first = body) ∧
    counted.openPlaces body 6 = [3, 5] ∧ counted.depthAfter 0 (body.take 6) = 2 ∧
    (substitute [2, 7] body)[2]? = some ⟨.number 7, {}⟩ ∧
    (substitute [2, 7] body)[6]? = some ⟨.word "J", {}⟩ ∧
    (substitute [2, 7] body)[9]? = some ⟨.word "K", {}⟩ ∧
    Option.Rel SameShape (conditional.scan (body.drop 2))
      (conditional.scan ((substitute [2, 7] body).drop 2)) := by
  intro tokens body
  have hscan : counted.scan tokens = some (⟨body, [], ⟨.word "+LOOP", {}⟩⟩, []) := by decide
  obtain ⟨-, hcounter, -, -, -, hchanged, hkept, hshape⟩ := substitute_respects_blocks hscan [2, 7]
  refine ⟨⟨_, hscan, rfl⟩, by decide, (hcounter 6 (by decide)).2.1, hchanged 2 7 ?_, hkept 6 ?_,
    hkept 9 ?_, hshape conditional (by simp) 2⟩
  · exact ⟨⟨.word "J", {}⟩, "J", 1, rfl, rfl, rfl, rfl, by decide⟩
  · rintro index ⟨t, name, level, -, -, -, -, hopen⟩
    revert hopen
    decide
  · rintro index ⟨t, name, level, ht, hname, hlevel, hindex, -⟩
    cases ht
    cases hname
    rcases level with _ | _ | level
    · revert hlevel
      decide
    · revert hlevel
      decide
    · cases hindex

end TokenForth

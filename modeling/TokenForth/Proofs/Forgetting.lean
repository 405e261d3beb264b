import Mathlib.Data.List.Infix
import Mathlib.Data.List.TakeWhile
import TokenForth.Dictionary

/-!
# Forgetting travels back in time

A dictionary grows by one binding at a time and shrinks by forgetting. A binding keeps its place as
long as the dictionary does not shrink back to the size it had before, so each binding that is there
belongs to one moment of the history, and to forget a name is to return to the moment before its
newest binding was made.
-/
namespace TokenForth.Dictionary

/-- The newest binding of a name parts the dictionary. -/
theorem get?_eq_some_iff {d : Dictionary} {name : String} {w : Word} :
    d.get? name = some w ↔ w.name = name ∧
      ∃ newer older, d.words = newer ++ w :: older ∧ ∀ v ∈ newer, v.name ≠ name := by
  simp [get?, List.find?_eq_some_iff_append]

theorem get?_eq_none_iff {d : Dictionary} {name : String} :
    d.get? name = none ↔ ∀ w ∈ d.words, w.name ≠ name := by
  simp [get?, List.find?_eq_none]

section Parted

variable {d : Dictionary} {w : Word} {newer older : List Word}
  (hwords : d.words = newer ++ w :: older) (hnewer : ∀ v ∈ newer, v.name ≠ w.name)
include hwords hnewer

theorem get?_parted : d.get? w.name = some w := by
  apply get?_eq_some_iff.mpr
  exact ⟨rfl, newer, older, hwords, hnewer⟩

theorem since_parted : d.since w.name = newer ++ [w] := by
  have hpos : ∀ v ∈ newer, decide (v.name ≠ w.name) := by simpa using hnewer
  rw [since, hwords, List.takeWhile_append_of_pos hpos, List.dropWhile_append_of_pos hpos]
  simp

theorem before_parted : d.before w.name = older := by
  have hpos : ∀ v ∈ newer, decide (v.name ≠ w.name) := by simpa using hnewer
  rw [before, hwords, List.dropWhile_append_of_pos hpos]
  simp

theorem position?_parted : d.position? w.name = some older.length := by
  simp [position?, get?_parted hwords hnewer, before_parted hwords hnewer]

theorem forget?_parted : d.forget? w.name = some ((newer ++ [w]).reverse, ⟨older⟩) := by
  simp [forget?, get?_parted hwords hnewer, since_parted hwords hnewer,
    before_parted hwords hnewer]

end Parted

theorem forget?_eq_some {d older : Dictionary} {name : String} {removed : List Word}
    (h : d.forget? name = some (removed, older)) :
    ∃ newer w, d.words = newer ++ w :: older.words ∧ w.name = name ∧
      (∀ v ∈ newer, v.name ≠ name) ∧ removed = (newer ++ [w]).reverse := by
  obtain ⟨w, hget, -⟩ := Option.map_eq_some_iff.mp h
  obtain ⟨rfl, newer, rest, hwords, hnewer⟩ := get?_eq_some_iff.mp hget
  rw [forget?_parted hwords hnewer] at h
  cases h
  exact ⟨newer, w, hwords, rfl, hnewer, rfl⟩

theorem forget?_eq_none_iff {d : Dictionary} {name : String} :
    d.forget? name = none ↔ d.get? name = none := Option.map_eq_none_iff

/-- A name means the binding at its position, which is the last of that name. -/
theorem get?_eq_toList_position? (d : Dictionary) (name : String) :
    d.get? name = (d.position? name).bind (d.toList[·]?) ∧
      ∀ i j w, d.position? name = some i → d.toList[j]? = some w → i < j → w.name ≠ name := by
  cases hget : d.get? name with
  | none => simp [position?, hget]
  | some w =>
    obtain ⟨rfl, newer, older, hwords, hnewer⟩ := get?_eq_some_iff.mp hget
    have hlist : d.toList = older.reverse ++ w :: newer.reverse := by simp [toList, hwords]
    rw [position?_parted hwords hnewer, hlist]
    constructor
    · simp
    · intro i j v hi hv hij
      cases hi
      rw [List.append_cons, List.getElem?_append_right (by simp; omega)] at hv
      exact hnewer v (List.mem_reverse.mp (List.mem_of_getElem? hv))

inductive Change where
  | add (w : Word)
  | forget (name : String)

/-- A name that is not bound cannot be forgotten, and then the dictionary stays. -/
def change (d : Dictionary) : Change → Dictionary
  | .add w => d.add w
  | .forget name => ((d.forget? name).map Prod.snd).getD d

/-- The dictionary after a history of changes, which began with no bindings. -/
def replay (history : List Change) : Dictionary := history.foldl change empty

/-- The binding that was made when `past` had happened is there: the dictionary has been larger ever
since. -/
structure Holds (history past : List Change) (w : Word) : Prop where
  made : past ++ [.add w] <+: history
  larger : ∀ moment, past ++ [.add w] <+: moment → moment <+: history →
    (replay past).size < (replay moment).size

/-- The newest binding of a name that is there. -/
structure Newest (history : List Change) (name : String) (past : List Change) (w : Word) :
    Prop where
  holds : Holds history past w
  named : w.name = name
  last : ∀ past' w', Holds history past' w' → w'.name = name → past' <+: past

theorem replay_concat (history : List Change) (c : Change) :
    replay (history ++ [c]) = (replay history).change c := by
  simp [replay, List.foldl_append]

theorem change_forget_suffix (d : Dictionary) (name : String) :
    (d.change (.forget name)).words <:+ d.words := by
  cases hforget : d.forget? name with
  | none => simp [change, hforget]
  | some result =>
    obtain ⟨removed, older⟩ := result
    obtain ⟨newer, w, hwords, -⟩ := forget?_eq_some hforget
    simp only [change, hforget, Option.map_some, Option.getD_some, hwords]
    exact (List.suffix_cons w older.words).trans (List.suffix_append newer _)

/-- A binding that is there stays if the next change leaves the dictionary larger than before it. -/
theorem Holds.concat {history past : List Change} {w : Word} {c : Change}
    (h : Holds history past w) (hsize : (replay past).size < (replay (history ++ [c])).size) :
    Holds (history ++ [c]) past w := by
  constructor
  · exact h.made.trans (List.prefix_append history [c])
  · intro moment hmade hmoment
    rcases List.prefix_concat_iff.mp hmoment with rfl | hmoment
    · exact hsize
    · exact h.larger moment hmade hmoment

/-- A binding stays on top of what there was when it was made. -/
theorem Holds.suffix {history past : List Change} {w : Word} (h : Holds history past w) :
    w :: (replay past).words <:+ (replay history).words := by
  induction history using List.reverseRecOn with
  | nil => simpa using h.made
  | append_singleton history c ih =>
    rcases List.prefix_concat_iff.mp h.made with hmade | hmade
    · obtain ⟨rfl, hc⟩ := List.append_inj' hmade rfl
      cases hc
      rw [replay_concat]
      exact List.suffix_rfl
    · have hbefore : Holds history past w :=
        ⟨hmade, fun moment hfrom hto => h.larger moment hfrom (hto.trans (List.prefix_append _ _))⟩
      have hsize := h.larger (history ++ [c]) h.made List.prefix_rfl
      cases c with
      | add v =>
        rw [replay_concat]
        exact (ih hbefore).trans (List.suffix_cons v _)
      | forget name =>
        rw [replay_concat] at hsize ⊢
        exact List.suffix_of_suffix_length_le (ih hbefore) (change_forget_suffix _ name) hsize

/-- Every binding that is there was made at some moment, on top of what was there then. -/
theorem exists_holds {history : List Change} {w : Word} {newer older : List Word}
    (h : (replay history).words = newer ++ w :: older) :
    ∃ past, Holds history past w ∧ replay past = ⟨older⟩ := by
  induction history using List.reverseRecOn generalizing newer with
  | nil => simp [replay, empty] at h
  | append_singleton history c ih =>
    -- All but the newest binding was there before the change.
    have hkept : ∀ rest, (replay history).words = rest ++ w :: older →
        ∃ past, Holds (history ++ [c]) past w ∧ replay past = ⟨older⟩ := by
      intro rest hrest
      obtain ⟨past, hholds, hpast⟩ := ih hrest
      refine ⟨past, hholds.concat ?_, hpast⟩
      simp only [size, hpast, h, List.length_append, List.length_cons]
      omega
    rw [replay_concat] at h
    cases c with
    | forget name =>
      obtain ⟨gone, hgone⟩ := change_forget_suffix (replay history) name
      apply hkept (gone ++ newer)
      rw [← hgone, h, List.append_assoc]
    | add v =>
      cases newer with
      | cons u newer =>
        injection h with _ hrest
        exact hkept newer hrest
      | nil =>
        injection h with hvw hrest
        subst hvw
        refine ⟨history, ⟨List.prefix_rfl, ?_⟩, congrArg Dictionary.mk hrest⟩
        intro moment hfrom hto
        have hmoment : moment = history ++ [.add v] :=
          hto.eq_of_length (Nat.le_antisymm hto.length_le hfrom.length_le)
        rw [hmoment, replay_concat]
        simp [size, change, add]

/-- Of two bindings that are there the later lies higher. -/
theorem Holds.size_lt {history past past' : List Change} {w w' : Word}
    (h : Holds history past w) (h' : Holds history past' w') (hlt : past.length < past'.length) :
    (replay past).size < (replay past').size := by
  have hto : past' <+: history := (List.prefix_append past' _).trans h'.made
  apply h.larger past' _ hto
  apply List.prefix_of_prefix_length_le h.made hto
  simp only [List.length_append, List.length_singleton]
  omega

/-- A binding that no later one of its name covers is the newest. -/
theorem Holds.newest {history past : List Change} {w : Word} {newer : List Word}
    (h : Holds history past w) (hwords : (replay history).words = newer ++ w :: (replay past).words)
    (hnewer : ∀ v ∈ newer, v.name ≠ w.name) : Newest history w.name past w := by
  refine ⟨h, rfl, ?_⟩
  intro past' w' h' hname
  have hpast : past <+: history := (List.prefix_append past _).trans h.made
  have hpast' : past' <+: history := (List.prefix_append past' _).trans h'.made
  by_cases hle : past'.length ≤ past.length
  · exact List.prefix_of_prefix_length_le hpast' hpast hle
  · -- A later binding would lie among the newer ones.
    exfalso
    have hsize : (replay past).size < (replay past').size := h.size_lt h' (by omega)
    have hunder : w :: (replay past).words <:+ (replay past').words :=
      List.suffix_of_suffix_length_le h.suffix ((List.suffix_cons w' _).trans h'.suffix) hsize
    obtain ⟨between, hbetween⟩ := hunder
    obtain ⟨above, habove⟩ := h'.suffix
    rw [hwords, ← hbetween, ← List.cons_append, ← List.append_assoc] at habove
    have hamong : above ++ w' :: between = newer := List.append_cancel_right habove
    apply hnewer w' _ hname
    simp [← hamong]

/-- The place of a binding is the number of those that were there when it was made. -/
theorem toList_eq_some_iff {history : List Change} {i : Nat} {w : Word} :
    (replay history).toList[i]? = some w ↔
      ∃ past, Holds history past w ∧ (replay past).size = i := by
  constructor
  · intro h
    obtain ⟨hi, hget⟩ := List.getElem?_eq_some_iff.mp h
    have hsplit : (replay history).words =
        ((replay history).toList.drop (i + 1)).reverse ++
          w :: ((replay history).toList.take i).reverse := by
      have hparts := List.take_append_drop i (replay history).toList
      rw [List.drop_eq_getElem_cons hi, hget] at hparts
      have hreverse := congrArg List.reverse hparts
      simpa [toList] using hreverse.symm
    obtain ⟨past, hholds, hpast⟩ := exists_holds hsplit
    refine ⟨past, hholds, ?_⟩
    simp only [hpast, size, List.length_reverse, List.length_take]
    omega
  · rintro ⟨past, hholds, rfl⟩
    obtain ⟨above, habove⟩ := hholds.suffix
    simp [toList, ← habove, size]

/-- What there is to forget was made at some moment. -/
theorem get?_eq_none_iff_holds {history : List Change} {name : String} :
    (replay history).get? name = none ↔ ∀ past w, Holds history past w → w.name ≠ name := by
  rw [get?_eq_none_iff]
  constructor
  · intro h past w hholds
    apply h w
    exact hholds.suffix.subset List.mem_cons_self
  · intro h w hw
    obtain ⟨newer, older, hwords⟩ := List.append_of_mem hw
    obtain ⟨past, hholds, -⟩ := exists_holds hwords
    exact h past w hholds

/-- To forget a name takes back the newest binding of it that is there, with all that came later, and
so gives the dictionary of the moment before that binding was made. A name that is not bound cannot
be forgotten. A binding has the same place and the same content as long as it is there. -/
theorem forget_returns_to_past (history : List Change) (name : String) :
    (∀ removed older, (replay history).forget? name = some (removed, older) →
      ∃ past w, Newest history name past w ∧ older = replay past ∧
        (replay history).toList = (replay past).toList ++ removed ∧
        replay (history ++ [.forget name]) = replay past ∧
        ∀ other, (replay (history ++ [.forget name])).get? other = (replay past).get? other) ∧
    ((replay history).forget? name = none ↔ ∀ past w, Holds history past w → w.name ≠ name) ∧
    ((replay history).forget? name = none →
      replay (history ++ [.forget name]) = replay history) ∧
    ((replay history).get? name =
        ((replay history).position? name).bind ((replay history).toList[·]?) ∧
      ∀ i j w, (replay history).position? name = some i → (replay history).toList[j]? = some w →
        i < j → w.name ≠ name) ∧
    ∀ i w, (replay history).toList[i]? = some w ↔
      ∃ past, Holds history past w ∧ (replay past).size = i := by
  refine ⟨?_, ?_, ?_, get?_eq_toList_position? _ _, fun _ _ => toList_eq_some_iff⟩
  · intro removed older hforget
    obtain ⟨newer, w, hwords, rfl, hnewer, rfl⟩ := forget?_eq_some hforget
    obtain ⟨past, hholds, hpast⟩ := exists_holds hwords
    have holder : older = replay past := hpast.symm
    have hafter : replay (history ++ [.forget w.name]) = replay past := by
      rw [replay_concat]
      simp [change, hforget, holder]
    refine ⟨past, w, ?_, holder, ?_, hafter, fun other => by rw [hafter]⟩
    · apply hholds.newest _ hnewer
      rw [hwords, holder]
    · simp [toList, hwords, holder]
  · rw [forget?_eq_none_iff, get?_eq_none_iff_holds]
  · intro hnone
    rw [replay_concat]
    simp [change, hnone]

/-- The second `X` and the `Z` after it go, and `X` means again what it meant before. -/
theorem forget_returns_to_past_shadowed :
    let one : Word := { name := "X", action := .primitive (.literal 1) }
    let two : Word := { name := "X", action := .primitive (.literal 2) }
    let other : Word := { name := "Z", action := .body [] }
    let history : List Change :=
      [.add one, .add { other with name := "Y" }, .forget "Y", .add two, .add other]
    (replay history).forget? "X" = some ([two, other], ⟨[one]⟩) ∧
      ∃ past w, Newest history "X" past w ∧ ⟨[one]⟩ = replay past ∧
        (replay (history ++ [.forget "X"])).get? "X" = (replay past).get? "X" := by
  intro one two other history
  have hforget : (replay history).forget? "X" = some ([two, other], ⟨[one]⟩) := by decide
  obtain ⟨past, w, hnewest, hpast, -, -, hget⟩ :=
    (forget_returns_to_past history "X").1 _ _ hforget
  exact ⟨hforget, past, w, hnewest, hpast, hget "X"⟩

end TokenForth.Dictionary

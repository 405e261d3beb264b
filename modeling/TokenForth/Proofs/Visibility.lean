import Mathlib.Data.Finset.Card
import TokenForth.Proofs.Forgetting

/-!
# The listing shows what is found

A binding is visible if no newer one has its name. These are the bindings that names mean, so the
listing of a dictionary has one line for each name, with the binding that the name means. Lines stand
in the order the bindings were made, and all names fit the column that is as wide as the longest of
them has bytes.
-/
namespace TokenForth

namespace Dictionary

theorem get?_add (d : Dictionary) (v : Word) (name : String) :
    (d.add v).get? name = if v.name = name then some v else d.get? name := by
  simp only [get?, add, List.find?_cons]
  split <;> simp_all

/-- A new binding takes the place after all others. -/
theorem position?_add (d : Dictionary) (v : Word) (name : String) :
    (d.add v).position? name = if v.name = name then some d.size else d.position? name := by
  rw [position?, get?_add]
  by_cases hname : v.name = name
  · simp [before, add, size, hname]
  · simp [position?, before, add, hname]

theorem position?_lt {d : Dictionary} {name : String} {i : Nat} (h : d.position? name = some i) :
    i < d.size := by
  cases hget : d.get? name with
  | none => simp [position?, hget] at h
  | some w =>
    obtain ⟨rfl, newer, older, hwords, hnewer⟩ := get?_eq_some_iff.mp hget
    rw [position?_parted hwords hnewer] at h
    cases h
    simp only [size, hwords, List.length_append, List.length_cons]
    omega

/-- The visible bindings are those that names mean. -/
theorem mem_newest_iff {words : List Word} {w : Word} :
    w ∈ newest words ↔ (⟨words⟩ : Dictionary).get? w.name = some w := by
  induction words with
  | nil => simp [newest, get?]
  | cons v words ih =>
    have hget := get?_add ⟨words⟩ v w.name
    rw [add] at hget
    rw [hget, newest, List.mem_cons, List.mem_filter, ih]
    by_cases hname : v.name = w.name
    · simp [hname, eq_comm]
    · have hne : w ≠ v := fun h => hname (h ▸ rfl)
      simp [hname, hne, Ne.symm hname]

/-- A name has one visible binding at most. -/
theorem nodup_newest (words : List Word) : ((newest words).map (·.name)).Nodup := by
  induction words with
  | nil => exact List.nodup_nil
  | cons v words ih =>
    rw [newest, List.map_cons, List.nodup_cons]
    exact ⟨by simp, ih.sublist (List.filter_sublist.map _)⟩

/-- The newest bindings of both names are these, and the first of them was made earlier. -/
def Precedes (d : Dictionary) (v w : Word) : Prop :=
  ∃ i j, i < j ∧ d.position? v.name = some i ∧ d.toList[i]? = some v ∧
    d.position? w.name = some j ∧ d.toList[j]? = some w

/-- What a name means stands at its position. -/
theorem exists_position {d : Dictionary} {w : Word} (h : d.get? w.name = some w) :
    ∃ i, d.position? w.name = some i ∧ d.toList[i]? = some w := by
  have hplace := (d.get?_eq_toList_position? w.name).1
  rw [h] at hplace
  cases hi : d.position? w.name with
  | none => simp [hi] at hplace
  | some i => exact ⟨i, rfl, by simpa [hi] using hplace.symm⟩

/-- A binding that is still visible after a new one keeps its position. -/
theorem position?_add_of_mem {words : List Word} {v w : Word}
    (h : w ∈ (newest words).filter (·.name ≠ v.name)) :
    (⟨v :: words⟩ : Dictionary).position? w.name = (⟨words⟩ : Dictionary).position? w.name := by
  have hname : w.name ≠ v.name := by simpa using (List.mem_filter.mp h).2
  have hposition := position?_add ⟨words⟩ v w.name
  rwa [if_neg (Ne.symm hname)] at hposition

theorem positions_newest (words : List Word) :
    (newest words).Pairwise fun w v => ∀ i j, (⟨words⟩ : Dictionary).position? v.name = some i →
      (⟨words⟩ : Dictionary).position? w.name = some j → i < j := by
  induction words with
  | nil => exact .nil
  | cons v words ih =>
    rw [newest, List.pairwise_cons]
    constructor
    · intro w hw i j hi hj
      have htop := position?_add ⟨words⟩ v v.name
      rw [if_pos rfl, add, hj] at htop
      rw [position?_add_of_mem hw] at hi
      cases htop
      exact position?_lt hi
    · refine (ih.filter _).imp_of_mem fun hu hw hlt => ?_
      rwa [position?_add_of_mem hu, position?_add_of_mem hw]

theorem mem_visible_iff {d : Dictionary} {w : Word} : w ∈ d.visible ↔ d.get? w.name = some w := by
  rw [visible, List.mem_reverse]
  exact mem_newest_iff

theorem nodup_visible (d : Dictionary) : (d.visible.map (·.name)).Nodup := by
  rw [visible, List.map_reverse, List.nodup_reverse]
  exact nodup_newest d.words

theorem pairwise_visible (d : Dictionary) : d.visible.Pairwise d.Precedes := by
  rw [visible, List.pairwise_reverse]
  refine (positions_newest d.words).imp_of_mem fun {w v} hw hv hlt => ?_
  obtain ⟨j, hj, hw⟩ := exists_position (mem_newest_iff.mp hw)
  obtain ⟨i, hi, hv⟩ := exists_position (mem_newest_iff.mp hv)
  exact ⟨i, j, hlt i j hi hj, hi, hv, hj, hw⟩

theorem mem_names_visible {d : Dictionary} {name : String} :
    name ∈ d.visible.map (·.name) ↔ name ∈ d.words.map (·.name) := by
  constructor
  · intro h
    obtain ⟨w, hw, rfl⟩ := List.mem_map.mp h
    obtain ⟨-, newer, older, hwords, -⟩ := get?_eq_some_iff.mp (mem_visible_iff.mp hw)
    exact List.mem_map_of_mem (by simp [hwords])
  · intro h
    cases hget : d.get? name with
    | none =>
      obtain ⟨w, hw, rfl⟩ := List.mem_map.mp h
      exact absurd rfl (get?_eq_none_iff.mp hget w hw)
    | some w =>
      obtain ⟨rfl, -⟩ := get?_eq_some_iff.mp hget
      exact List.mem_map_of_mem (mem_visible_iff.mpr hget)

/-- There are as many visible bindings as names. -/
theorem length_visible (d : Dictionary) :
    d.visible.length = (d.words.map (·.name)).toFinset.card := by
  have hnames : (d.words.map (·.name)).toFinset = (d.visible.map (·.name)).toFinset := by
    ext name
    rw [List.mem_toFinset, List.mem_toFinset, mem_names_visible]
  rw [hnames, List.toFinset_card_of_nodup d.nodup_visible, List.length_map]

/-- The width of the name column is the greatest size of a name. -/
theorem nameWidth_eq_max (words : List Word) :
    nameWidth words = ((words.map (·.name.utf8ByteSize)).max?).getD 0 := by
  rw [nameWidth, List.foldl_max, Nat.zero_max]

theorem size_le_nameWidth {words : List Word} {w : Word} (h : w ∈ words) :
    w.name.utf8ByteSize ≤ nameWidth words := by
  rw [nameWidth_eq_max]
  exact List.le_max?_getD_of_mem (List.mem_map_of_mem h)

end Dictionary

/-- A character takes at least one byte. -/
theorem Text.length_le_size (text : String) : text.length ≤ text.utf8ByteSize := by
  rw [← String.ofList_toList (s := text), String.length_ofList]
  induction text.toList with
  | nil => exact Nat.zero_le _
  | cons c cs ih =>
    have hc := c.utf8Size_pos
    rw [String.ofList_cons, String.utf8ByteSize_append, String.utf8ByteSize_singleton,
      List.length_cons]
    omega

/-- A text and the spaces after it fill the column, unless the text is too long for it. -/
theorem Text.length_alignLeft (width : Nat) (text : String) :
    (alignLeft width text).length = max width text.length := by
  simp only [alignLeft, spaces, String.length_append, String.length_ofList, List.length_replicate]
  omega

/-- The columns of a line, with the spaces that fill them written out. -/
theorem Word.listingLine_eq (width : Nat) (w : Word) :
    w.listingLine width = w.name ++ Text.spaces (width - w.name.length) ++ "  " ++
      (if w.isPrimitive then "builtin" else "user   ") ++ "  " ++ w.signature ++
      Text.spaces (16 - w.signature.length) ++ "  --  " ++ w.description ++ "\n" := by
  have hkind : Text.alignLeft 7 (if w.isPrimitive then "builtin" else "user") =
      if w.isPrimitive then "builtin" else "user   " := by
    split <;> decide
  rw [listingLine, hkind]
  simp only [Text.alignLeft, String.append_assoc]

namespace Dictionary

/-- The listing counts the names that are bound and has one line for each of them, with the binding
that the name means, in the order these bindings were made. Each line shows the name, padded to the
width of the longest name in bytes, and then the kind, the signature and the description of the
word. -/
theorem listing_shows_found (d : Dictionary) :
    let width := ((d.visible.map (·.name.utf8ByteSize)).max?).getD 0
    d.render = toString (d.words.map (·.name)).toFinset.card ++ " words defined.\n\n" ++
      String.join (d.visible.map (Word.listingLine width)) ∧
    (∀ name, (d.visible.map (·.name)).count name = if name ∈ d.words.map (·.name) then 1 else 0) ∧
    (∀ w ∈ d.visible, d.get? w.name = some w) ∧
    d.visible.Pairwise d.Precedes ∧
    ∀ w ∈ d.visible, ∃ padding filling,
      w.listingLine width = w.name ++ padding ++ "  " ++
        (if w.isPrimitive then "builtin" else "user   ") ++ "  " ++ w.signature ++ filling ++
        "  --  " ++ w.description ++ "\n" ∧
      (∀ c ∈ padding.toList, c = ' ') ∧ (w.name ++ padding).length = width ∧
      (∀ c ∈ filling.toList, c = ' ') ∧
      (w.signature ++ filling).length = max 16 w.signature.length := by
  intro width
  have hwidth : nameWidth d.visible = width := nameWidth_eq_max d.visible
  refine ⟨?_, ?_, fun w hw => mem_visible_iff.mp hw, pairwise_visible d, ?_⟩
  · rw [← length_visible, ← hwidth]
    rfl
  · intro name
    rw [d.nodup_visible.count]
    simp only [mem_names_visible]
  · intro w hw
    have hfits : w.name.length ≤ width := by
      rw [← hwidth]
      exact (Text.length_le_size w.name).trans (size_le_nameWidth hw)
    have hspaces (n : Nat) : ∀ c ∈ (Text.spaces n).toList, c = ' ' := by simp [Text.spaces]
    refine ⟨Text.spaces (width - w.name.length), Text.spaces (16 - w.signature.length),
      w.listingLine_eq width, hspaces _, ?_, hspaces _, Text.length_alignLeft 16 w.signature⟩
    exact (Text.length_alignLeft width w.name).trans (Nat.max_eq_left hfits)

end Dictionary

end TokenForth

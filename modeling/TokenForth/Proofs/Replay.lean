import Mathlib.Data.List.Induction
import Mathlib.Data.List.TakeWhile
import TokenForth.Variables

/-!
# What becomes of variables

The variables after a sequence of declarations and stores. The names have the addresses from the
base on in the order of their first declarations. As long as the addresses stay in range, each of
them holds what was stored there last since its name was declared.
-/
namespace TokenForth

namespace Variables

/-- What a program does to the variables. -/
inductive Event where
  | declare (name : String)
  | store (address value : Cell)
  deriving DecidableEq, Repr

namespace Event

def declared? : Event → Option String
  | declare name => some name
  | store _ _ => none

def storedAt? (address : Cell) : Event → Option Cell
  | declare _ => none
  | store target value => if target = address then some value else none

end Event

def apply (v : Variables) : Event → Variables
  | .declare name => (v.allocate name).2
  | .store address value => v.store address value

def replay (v : Variables) (events : List Event) : Variables := events.foldl apply v

def names (events : List Event) : List String := (events.filterMap Event.declared?).eraseDups

/-- The cell that was stored last at an address since a name was first declared, or zero. -/
def latest (events : List Event) (name : String) (address : Cell) : Cell :=
  ((events.dropWhile (· ≠ .declare name)).filterMap (Event.storedAt? address)).getLast?.getD 0

@[simp] theorem replay_append (v : Variables) (events more : List Event) :
    v.replay (events ++ more) = (v.replay events).replay more := List.foldl_append

theorem mem_names {events : List Event} {name : String} :
    name ∈ names events ↔ .declare name ∈ events := by
  rw [names, List.mem_eraseDups, List.mem_filterMap]
  constructor
  · rintro ⟨e, he, hname⟩
    cases e with
    | declare other =>
      cases hname
      exact he
    | store address value => cases hname
  · exact fun h => ⟨_, h, rfl⟩

theorem names_store (events : List Event) (address value : Cell) :
    names (events ++ [.store address value]) = names events := by
  rw [names, List.filterMap_append]
  exact congrArg List.eraseDups (List.append_nil _)

theorem names_declare (events : List Event) (name : String) :
    names (events ++ [.declare name]) =
      if name ∈ names events then names events else names events ++ [name] := by
  have hdeclared : (events ++ [Event.declare name]).filterMap Event.declared? =
      events.filterMap Event.declared? ++ [name] := List.filterMap_append
  simp only [names, hdeclared, List.eraseDups_append, List.mem_eraseDups]
  generalize events.filterMap Event.declared? = declared
  by_cases h : name ∈ declared
  · simp [List.removeAll, h]
  · simp [List.removeAll, h, List.eraseDups_cons]

theorem latest_append {events : List Event} {name : String} (h : name ∈ names events) (e : Event)
    (address : Cell) :
    latest (events ++ [e]) name address =
      (e.storedAt? address).getD (latest events name address) := by
  have hne : (events.dropWhile (· ≠ .declare name)).isEmpty = false := by
    rw [Bool.eq_false_iff, ne_eq, List.isEmpty_iff, List.dropWhile_eq_nil_iff]
    intro hall
    simpa using hall _ (mem_names.mp h)
  rw [latest, List.dropWhile_append, hne, if_neg Bool.false_ne_true, List.filterMap_append,
    List.getLast?_append]
  cases he : e.storedAt? address with
  | none => simp [he, latest]
  | some value => simp [he]

theorem latest_declare {events : List Event} {name : String} (h : name ∉ names events)
    (address : Cell) : latest (events ++ [.declare name]) name address = 0 := by
  have hnil : events.dropWhile (· ≠ .declare name) = [] := by
    rw [List.dropWhile_eq_nil_iff]
    intro e he
    have hne : e ≠ .declare name := fun heq => h (mem_names.mpr (heq ▸ he))
    simpa using hne
  rw [latest, List.dropWhile_append, hnil]
  simp [Event.storedAt?]

theorem lookup_filter_of_ne {address other : Cell} (h : other ≠ address)
    (cells : List (Cell × Cell)) :
    (cells.filter fun entry => entry.1 != address).lookup other = cells.lookup other := by
  induction cells with
  | nil => rfl
  | cons entry rest ih =>
    obtain ⟨key, value⟩ := entry
    by_cases hkey : key = address
    · subst hkey
      simp [List.lookup_cons, beq_false_of_ne h, ih]
    · simp [hkey, List.lookup_cons, ih]

theorem fetch?_store (v : Variables) (address value other : Cell) :
    (v.store address value).fetch? other =
      if other = address then some value else v.fetch? other := by
  simp only [store, fetch?, List.lookup_cons]
  by_cases h : other = address
  · simp [h]
  · simp [beq_false_of_ne h, h, lookup_filter_of_ne h]

theorem address?_allocate_new {v : Variables} {name : String} (h : v.address? name = none)
    (other : String) :
    (v.allocate name).2.address? other =
      if other = name then some v.next else v.address? other := by
  simp only [allocate, h]
  simp only [address?, store, List.lookup_cons]
  by_cases h : other = name
  · simp [h]
  · simp [beq_false_of_ne h, h]

theorem fetch?_allocate_new {v : Variables} {name : String} (h : v.address? name = none)
    (address : Cell) :
    (v.allocate name).2.fetch? address = if address = v.next then some 0 else v.fetch? address := by
  simp only [allocate, h]
  exact fetch?_store _ _ _ _

theorem allocate_old {v : Variables} {name : String} (h : v.address? name ≠ none) :
    (v.allocate name).2 = v := by
  unfold allocate
  split
  · rfl
  · next hnone => exact absurd hnone h

/-- The names have the addresses from the base on, and the next address comes behind them. -/
structure Numbered (base : Cell) (events : List Event) (v : Variables) : Prop where
  next : v.next = base + Int64.ofNat (names events).length
  address : ∀ name a, v.address? name = some a ↔
    ∃ i, (names events)[i]? = some name ∧ a = base + Int64.ofNat i

theorem Numbered.address_eq_none {base : Cell} {events : List Event} {v : Variables}
    (h : Numbered base events v) {name : String} :
    v.address? name = none ↔ name ∉ names events := by
  rw [Option.eq_none_iff_forall_ne_some, List.mem_iff_getElem?]
  constructor
  · rintro hnone ⟨i, hi⟩
    exact hnone _ ((h.address name _).mpr ⟨i, hi, rfl⟩)
  · intro hnames a ha
    obtain ⟨i, hi, -⟩ := (h.address name a).mp ha
    exact hnames ⟨i, hi⟩

theorem Numbered.of_eq {base : Cell} {events events' : List Event} {v v' : Variables}
    (h : Numbered base events v) (hnames : names events' = names events) (hnext : v'.next = v.next)
    (haddresses : v'.addresses = v.addresses) : Numbered base events' v' := by
  refine ⟨?_, fun name a => ?_⟩
  · rw [hnames, hnext, h.next]
  · rw [hnames, ← h.address, address?, haddresses]
    rfl

theorem Numbered.declare {base : Cell} {events : List Event} {v : Variables}
    (h : Numbered base events v) {name : String} (hname : name ∉ names events) :
    Numbered base (events ++ [.declare name]) (v.allocate name).2 := by
  have hnone := h.address_eq_none.mpr hname
  have hnames : names (events ++ [.declare name]) = names events ++ [name] := by
    rw [names_declare, if_neg hname]
  -- A place in the longer list is a place in the shorter one or the last place.
  have hplace (i : Nat) (other : String) : (names events ++ [name])[i]? = some other ↔
      (names events)[i]? = some other ∨ i = (names events).length ∧ other = name := by
    grind
  refine ⟨?_, fun other a => ?_⟩
  · have hnext : (v.allocate name).2.next = v.next + 1 := by
      simp only [allocate, hnone]
      rfl
    rw [hnext, hnames, h.next, List.length_append, Int64.ofNat_add, Int64.add_assoc]
    rfl
  · simp only [address?_allocate_new hnone, hnames, hplace]
    by_cases hother : other = name
    · subst hother
      rw [if_pos rfl, h.next]
      constructor
      · intro ha
        exact ⟨_, .inr ⟨rfl, rfl⟩, (Option.some.inj ha).symm⟩
      · rintro ⟨i, hi | ⟨rfl, -⟩, rfl⟩
        · exact absurd (List.mem_of_getElem? hi) hname
        · rfl
    · rw [if_neg hother, h.address]
      simp only [hother, and_false, or_false]

theorem numbered_replay (base : Cell) (events : List Event) :
    Numbered base events ((empty base).replay events) := by
  induction events using List.reverseRecOn with
  | nil =>
    constructor
    · simp [names, replay, empty]
    · simp [names, replay, empty, address?]
  | append_singleton events e ih =>
    rw [replay_append]
    generalize (empty base).replay events = v at ih
    cases e with
    | store address value => exact ih.of_eq (names_store _ _ _) rfl rfl
    | declare name =>
      change Numbered base _ (v.allocate name).2
      by_cases hname : name ∈ names events
      · rw [allocate_old (mt ih.address_eq_none.mp (not_not.mpr hname))]
        exact ih.of_eq (by rw [names_declare, if_pos hname]) rfl rfl
      · exact ih.declare hname

/-- The addresses of all the names are in the range of a cell. -/
def Fit (base : Cell) (events : List Event) : Prop :=
  base.toInt + (names events).length ≤ 9223372036854775808

theorem Fit.of_append {base : Cell} {events : List Event} {e : Event}
    (h : Fit base (events ++ [e])) : Fit base events := by
  have hlength : (names events).length ≤ (names (events ++ [e])).length := by
    cases e with
    | store address value => rw [names_store]
    | declare name =>
      rw [names_declare]
      split <;> simp
  unfold Fit at h ⊢
  omega

theorem toInt_of_fit {base : Cell} {i : Nat} (h : base.toInt + i < 9223372036854775808) :
    (base + Int64.ofNat i).toInt = base.toInt + i := by
  have hbase := base.le_toInt
  rw [Int64.toInt_add, Int64.toInt_ofNat', Int64.size, Int.add_bmod_bmod]
  apply Int.bmod_eq_of_le
  · omega
  · omega

/-- Places of addresses in range are told apart by the addresses. -/
theorem eq_of_fit {base : Cell} {i k : Nat} (hi : base.toInt + i < 9223372036854775808)
    (hk : base.toInt + k < 9223372036854775808)
    (h : base + Int64.ofNat i = base + Int64.ofNat k) : i = k := by
  have htoInt := congrArg Int64.toInt h
  rw [toInt_of_fit hi, toInt_of_fit hk] at htoInt
  omega

/-- The address of a name by its place, where all the addresses are in range. -/
theorem Numbered.toInt_address {base : Cell} {events : List Event} {v : Variables}
    (h : Numbered base events v) (hfit : Fit base events) {i : Nat} {name : String} {a : Cell}
    (hi : (names events)[i]? = some name) (ha : v.address? name = some a) :
    a.toInt = base.toInt + i := by
  have hlength := (List.getElem?_eq_some_iff.mp hi).1
  have hplace : v.address? name = some (base + Int64.ofNat i) := (h.address _ _).mpr ⟨i, hi, rfl⟩
  obtain rfl : base + Int64.ofNat i = a := Option.some.inj (hplace.symm.trans ha)
  unfold Fit at hfit
  exact toInt_of_fit (by omega)

/-- Different names have different addresses. -/
theorem Numbered.unique {base : Cell} {events : List Event} {v : Variables}
    (h : Numbered base events v) (hfit : Fit base events) {name other : String} {a : Cell}
    (hname : v.address? name = some a) (hother : v.address? other = some a) : name = other := by
  obtain ⟨i, hi, -⟩ := (h.address name a).mp hname
  obtain ⟨k, hk, -⟩ := (h.address other a).mp hother
  have ha := h.toInt_address hfit hi hname
  have ha' := h.toInt_address hfit hk hother
  obtain rfl : i = k := by omega
  exact Option.some.inj (hi.symm.trans hk)

/-- A name that is declared for the first time gets an address that no name has. -/
theorem Numbered.ne_next {base : Cell} {events : List Event} {v : Variables}
    (h : Numbered base events v) {name new : String} {a : Cell} (hnew : new ∉ names events)
    (hfit : Fit base (events ++ [.declare new])) (hname : v.address? name = some a) :
    a ≠ v.next := by
  obtain ⟨i, hi, rfl⟩ := (h.address name a).mp hname
  have hlength := (List.getElem?_eq_some_iff.mp hi).1
  rw [Fit, names_declare, if_neg hnew, List.length_append, List.length_singleton] at hfit
  rw [h.next]
  intro heq
  have hplace := eq_of_fit (by omega) (by omega) heq
  omega

theorem fetch?_replay {base : Cell} {events : List Event} (hfit : Fit base events) {name : String}
    {a : Cell} (h : ((empty base).replay events).address? name = some a) :
    ((empty base).replay events).fetch? a = some (latest events name a) := by
  induction events using List.reverseRecOn with
  | nil => cases h
  | append_singleton events e ih =>
    have ih := ih hfit.of_append
    have hnumbered := numbered_replay base events
    rw [replay_append] at h ⊢
    generalize (empty base).replay events = v at ih h hnumbered ⊢
    have hold (hv : v.address? name = some a) : name ∈ names events := by
      by_contra hname
      rw [hnumbered.address_eq_none.mpr hname] at hv
      cases hv
    cases e with
    | store address value =>
      change v.address? name = some a at h
      rw [latest_append (hold h), Event.storedAt?]
      change (v.store address value).fetch? a = _
      rw [fetch?_store]
      by_cases ha : a = address
      · simp [ha]
      · simp [ha, Ne.symm ha, ih h]
    | declare new =>
      change (v.allocate new).2.address? name = some a at h
      change (v.allocate new).2.fetch? a = _
      by_cases hnew : new ∈ names events
      · rw [allocate_old (mt hnumbered.address_eq_none.mp (not_not.mpr hnew))] at h ⊢
        rw [latest_append (hold h), ih h]
        rfl
      · have hnone := hnumbered.address_eq_none.mpr hnew
        rw [address?_allocate_new hnone] at h
        rw [fetch?_allocate_new hnone]
        by_cases hname : name = new
        · subst hname
          rw [if_pos rfl] at h
          rw [latest_declare hnew, if_pos (Option.some.inj h).symm]
        · rw [if_neg hname] at h
          rw [if_neg (hnumbered.ne_next hnew hfit h), latest_append (hold h), ih h]
          rfl

theorem address?_apply {v : Variables} {name : String} {a : Cell} (h : v.address? name = some a)
    (e : Event) : (v.apply e).address? name = some a := by
  cases e with
  | store address value => exact h
  | declare new =>
    change (v.allocate new).2.address? name = some a
    by_cases hnew : v.address? new = none
    · have hname : name ≠ new := by
        rintro rfl
        rw [hnew] at h
        cases h
      rw [address?_allocate_new hnew, if_neg hname, h]
    · rw [allocate_old hnew, h]

/-- A name keeps its address. -/
theorem address?_replay {v : Variables} {name : String} {a : Cell} (h : v.address? name = some a)
    (events : List Event) : (v.replay events).address? name = some a := by
  induction events generalizing v with
  | nil => exact h
  | cons e rest ih => exact ih (address?_apply h e)

end Variables

end TokenForth

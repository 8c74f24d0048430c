import Doppelganger.Dpg.Ops

/-! The arrays of the last-level cache, the exact one and the Doppelganger one, as their users see
them: which line id a lookup of an address finds, and how an insertion changes that. -/

namespace Doppelganger.Llc

open Function Dpg

/-- A `CacheArray` of `cache_arrays.h`.  The rest of a structure is what its users rely on: an
insertion after a lookup that missed takes the line id of one line, and the new line is found
there. -/
structure CacheArray (numLines : Nat) where
  State : Type
  init : State
  /-- What `rankCands` of the replacement policy answers. -/
  Rank : Type
  /-- The line id, or `none` for `-1`. -/
  lookup : Address → State → Option Nat
  /-- The candidate and `*wbLineAddr`. -/
  preinsert : Rank → Address → State → (Nat × Address) × State
  postinsert : Address → Nat → State → State
  lookup_lt : ∀ {a s id}, lookup a s = some id → id < numLines
  candidate_lt : ∀ rank a s, (preinsert rank a s).1.1 < numLines
  inserted : ∀ {a s} rank, lookup a s = none →
    lookup a (postinsert a (preinsert rank a s).1.1 (preinsert rank a s).2) =
      some (preinsert rank a s).1.1
  kept : ∀ {a b s id} rank, lookup a s = none → lookup b s = some id →
    id ≠ (preinsert rank a s).1.1 →
    lookup b (postinsert a (preinsert rank a s).1.1 (preinsert rank a s).2) = some id
  stored : ∀ {a b s} rank, b ≠ a →
    (lookup b (postinsert a (preinsert rank a s).1.1 (preinsert rank a s).2)).isSome →
    (lookup b s).isSome

section

variable {α : Type*} {p q : α → Bool} {x : α}

/-- A search that finds an element still does when fewer elements match. -/
theorem find_mono (hqp : ∀ y, q y = true → p y = true) (hx : q x = true) : ∀ {l : List α},
    l.find? p = some x → l.find? q = some x
  | y :: l, h => by
    by_cases hy : p y = true
    · rw [List.find?_cons_of_pos hy] at h
      obtain rfl := Option.some.inj h
      rw [List.find?_cons_of_pos hx]
    · rw [List.find?_cons_of_neg hy] at h
      rw [List.find?_cons_of_neg fun hq => hy (hqp y hq)]
      exact find_mono hqp hx h

theorem find_only {l : List α} (hx : q x = true) (hmem : x ∈ l)
    (honly : ∀ y ∈ l, q y = true → y = x) : l.find? q = some x := by
  cases h : l.find? q with
  | none => exact absurd hx (by simpa using List.find?_eq_none.mp h x hmem)
  | some y => rw [honly y (List.mem_of_find?_eq_some h) (List.find?_some h)]

theorem find_isSome {l : List α} (h : l.find? q = some x) (hx : p x = true) :
    (l.find? p).isSome :=
  List.find?_isSome.mpr ⟨x, List.mem_of_find?_eq_some h, hx⟩

end

/-! ### The set-associative array -/

namespace SetAssocArray

variable (cfg : Config)

/-- What `rankCands` returns for the candidates `[first, first + assoc)`: one of them. -/
structure RankCands (assoc : Nat) where
  choose : Nat → Nat
  choose_mem : ∀ first, first ≤ choose first ∧ choose first < first + assoc

/-- The state is `array`.  In the last-level cache the number of lines, the ways and the hash are
those of the Doppelganger array, hence the sets too. -/
def lookup (lineAddr : Address) (array : Nat → Address) : Option Nat :=
  (cfg.tagSet lineAddr).find? fun id => array id == lineAddr

def preinsert (rank : RankCands cfg.assoc) (lineAddr : Address) (array : Nat → Address) :
    Nat × Address :=
  let candidate := rank.choose (cfg.firstT lineAddr)
  (candidate, array candidate)

def postinsert (lineAddr : Address) (candidate : Nat) (array : Nat → Address) : Nat → Address :=
  update array candidate lineAddr

variable {cfg} {a b : Address} {array : Nat → Address} {id : Nat}

theorem lookup_some (h : lookup cfg a array = some id) : id ∈ cfg.tagSet a ∧ array id = a :=
  ⟨List.mem_of_find?_eq_some h, by simpa using List.find?_some h⟩

theorem lookup_none (h : lookup cfg a array = none) : ∀ id ∈ cfg.tagSet a, array id ≠ a := by
  simpa [lookup] using h

theorem candidate_mem (rank : RankCands cfg.assoc) (a : Address) (array : Nat → Address) :
    (preinsert cfg rank a array).1 ∈ cfg.tagSet a :=
  (cfg.mem_tagSet).mpr (rank.choose_mem _)

theorem inserted (hmem : id ∈ cfg.tagSet a) (hmiss : lookup cfg a array = none) :
    lookup cfg a (postinsert a id array) = some id := by
  refine find_only (by simp [postinsert]) hmem fun y hy hya => ?_
  by_contra hne
  have hya : array y = a := by simpa [postinsert, update_of_ne hne] using hya
  exact lookup_none hmiss y hy hya

theorem kept {c : Nat} (hmiss : lookup cfg a array = none) (hb : lookup cfg b array = some id)
    (hne : id ≠ c) : lookup cfg b (postinsert a c array) = some id := by
  have hab : b ≠ a := by
    rintro rfl
    simp [hmiss] at hb
  refine find_mono (fun y hy => ?_) ?_ hb
  · by_cases hyc : y = c
    · simp [postinsert, hyc, hab.symm] at hy
    · simpa [postinsert, update_of_ne hyc] using hy
  · simpa [postinsert, update_of_ne hne] using (lookup_some hb).2

theorem stored {c : Nat} (hab : b ≠ a) (hb : (lookup cfg b (postinsert a c array)).isSome) :
    (lookup cfg b array).isSome := by
  obtain ⟨id, hid⟩ := Option.isSome_iff_exists.mp hb
  refine find_isSome hid ?_
  have hid := (lookup_some hid).2
  by_cases hc : id = c
  · simp [postinsert, hc, hab.symm] at hid
  · simpa [postinsert, update_of_ne hc] using hid

end SetAssocArray

/-- `SetAssocArray` of `cache_arrays.cpp`, after its constructor. -/
def setAssocArray (cfg : Config) : CacheArray cfg.numLines where
  State := Nat → Address
  init _ := 0
  Rank := SetAssocArray.RankCands cfg.assoc
  lookup := SetAssocArray.lookup cfg
  preinsert rank lineAddr array := (SetAssocArray.preinsert cfg rank lineAddr array, array)
  postinsert := SetAssocArray.postinsert
  lookup_lt h := cfg.tagSet_lt (SetAssocArray.lookup_some h).1
  candidate_lt rank a array := cfg.tagSet_lt (SetAssocArray.candidate_mem rank a array)
  inserted rank hmiss := SetAssocArray.inserted (SetAssocArray.candidate_mem rank _ _) hmiss
  kept _ hmiss hb hne := SetAssocArray.kept hmiss hb hne
  stored _ hab hb := SetAssocArray.stored hab hb

/-! ### The Doppelganger array -/

section

variable {cfg : Config} {s s' : DpgArray} {a b x : Address} {t u d : Nat} {map : Int32}
  {E : List Nat}

theorem findTag_inserted (hp : Placed cfg t d map a E s s') (hmem : t ∈ cfg.tagSet a)
    (hmiss : findTag cfg a s = none) : findTag cfg a s' = some t := by
  refine find_only (by simp [hp.addr, hp.self]) hmem fun u hu hua => ?_
  by_contra hut
  simp only [Bool.and_eq_true, beq_iff_eq, Option.isSome_iff_exists] at hua
  obtain ⟨haddr, e, he⟩ := hua
  obtain ⟨hE, hue⟩ := hp.occupied he hut
  rw [hp.addr, if_neg hut, if_neg hE] at haddr
  simp [findTag_none.mp hmiss u hu haddr] at hue

/-- A tag that stays occupied keeps its address. -/
theorem findTag_back (hp : Placed cfg t d map a E s s') (hab : b ≠ a)
    (hu : s'.addr u == b && (s'.dataId u).isSome) :
    u ∉ E ∧ (s.addr u == b && (s.dataId u).isSome) = true := by
  simp only [Bool.and_eq_true, beq_iff_eq, Option.isSome_iff_exists] at hu ⊢
  obtain ⟨haddr, e, he⟩ := hu
  have hut : u ≠ t := by
    rintro rfl
    rw [hp.addr, if_pos rfl] at haddr
    exact hab haddr.symm
  obtain ⟨hE, hue⟩ := hp.occupied he hut
  rw [hp.addr, if_neg hut, if_neg hE] at haddr
  exact ⟨hE, haddr, e, hue⟩

theorem findTag_kept (hp : Placed cfg t d map a E s s') (hmiss : findTag cfg a s = none)
    (hb : findTag cfg b s = some u) (hut : u ≠ t) (hE : u ∉ E) :
    findTag cfg b s' = some u := by
  have hab : b ≠ a := by
    rintro rfl
    simp [hmiss] at hb
  refine find_mono (fun y hy => (findTag_back hp hab hy).2) ?_ hb
  obtain ⟨-, haddr, e, he⟩ := findTag_some hb
  simp [hp.addr, hp.dataId, hut, hE, haddr, he]

theorem findTag_stored (hp : Placed cfg t d map a E s s') (hab : b ≠ a)
    (hb : (findTag cfg b s').isSome) : (findTag cfg b s).isSome := by
  obtain ⟨u, hu⟩ := Option.isSome_iff_exists.mp hb
  obtain ⟨-, haddr, e, he⟩ := findTag_some hu
  exact find_isSome hu (findTag_back hp hab (by simp [haddr, he])).2

end

end Doppelganger.Llc

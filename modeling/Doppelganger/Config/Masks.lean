import Doppelganger.Config.Spans

/-! The masks that the parser makes of lists of items. -/

namespace Doppelganger.Config

open Lib

/-- The mask of a list of items, each with a span that is not empty and within the mask. -/
structure Denotes (str : List Char) (size : Nat) (mask : List Bool) : Prop where
  spans : ∀ item ∈ items str, ∃ s, denoted item = some s ∧ (∃ i, s.Has i) ∧ ∀ i, s.Has i → i < size
  length : mask.length = size
  bits : ∀ i, mask[i]? = some true ↔ ∃ item ∈ items str, ∃ s, denoted item = some s ∧ s.Has i

/-- The parser reports an error or returns the mask that the string denotes. -/
def Meets (str : List Char) (size : UInt32) : Prop :=
  (∃ e, parseMask str size = throw e) ∨
    ∃ mask, parseMask str size = pure mask ∧ Denotes str size.toNat mask

namespace Span

variable {min sup step : Nat}

theorem not_has (h : sup ≤ min) (i : Nat) : ¬ Has ⟨min, sup, step⟩ i := by
  rintro ⟨k, hi, hlt⟩
  dsimp only at hi hlt
  omega

theorem lt_of_has {i : Nat} (h : Has ⟨min, sup, step⟩ i) : min < sup := by
  by_contra hend
  exact not_has (by omega) i h

/-- A number of the span is its first one or one of those a step later. -/
theorem has_iff (h : min < sup) (i : Nat) :
    Has ⟨min, sup, step⟩ i ↔ i = min ∨ Has ⟨min + step, sup, step⟩ i := by
  constructor
  · rintro ⟨k, hi, hlt⟩
    cases k with
    | zero =>
      left
      simpa using hi
    | succ k =>
      right
      refine ⟨k, ?_, hlt⟩
      dsimp only at hi ⊢
      rw [hi, Nat.succ_mul]
      omega
  · rintro (rfl | ⟨k, hi, hlt⟩)
    · exact ⟨0, by simp, h⟩
    · refine ⟨k + 1, ?_, hlt⟩
      dsimp only at hi ⊢
      rw [hi, Nat.succ_mul]
      omega

end Span

section

variable {range : Range} {s : Span} (hholds : range.Holds s)
include hholds

theorem fillFrom_done {i : Int32} {x : Nat} (hi : i.toInt = x) (h : s.sup ≤ x) (fuel : Nat)
    (mask : List Bool) : range.fillFrom (fuel + 1) i mask = pure mask := by
  have hsup := hholds.sup
  rw [Range.fillFrom, if_neg]
  rw [Int32.lt_iff_toInt_lt]
  omega

theorem fillFrom_next {i : Int32} {x : Nat} (hi : i.toInt = x) (h : x < s.sup) {mask : List Bool}
    (hx : x < mask.length) (hlength : mask.length < 2 ^ 31) (fuel : Nat) :
    range.fillFrom (fuel + 1) i mask = range.fillFrom fuel (i + range.step) (mask.set x true) := by
  have hsup := hholds.sup
  have hzero : (0 : Int32).toInt = 0 := rfl
  have hsize := Int32.toInt_ofNat_of_lt hlength
  have hindex : i.toNatClampNeg = x := by
    rw [← Int32.toNat_toInt, hi, Int.toNat_natCast]
  rw [Range.fillFrom, if_pos, if_neg, hindex]
  · simp only [ge_iff_le, Int32.le_iff_toInt_le, Int32.lt_iff_toInt_lt, hsize]
    omega
  · rw [Int32.lt_iff_toInt_lt]
    omega

/-- Below the end of the range a number outside of the mask is an error. -/
theorem fillFrom_out {i : Int32} {mask : List Bool} (h : i.toInt < s.sup)
    (hout : i.toInt < 0 ∨ (Int32.ofNat mask.length).toInt ≤ i.toInt) (fuel : Nat) :
    ∃ e, range.fillFrom (fuel + 1) i mask = throw e := by
  have hsup := hholds.sup
  have hzero : (0 : Int32).toInt = 0 := rfl
  rw [Range.fillFrom, if_pos, if_pos]
  · exact ⟨_, rfl⟩
  · simp only [ge_iff_le, Int32.le_iff_toInt_le, Int32.lt_iff_toInt_lt]
    omega
  · rw [Int32.lt_iff_toInt_lt]
    omega

/-- The loop ends within the mask, and sets what is left of the span. -/
theorem fillFrom_fits (hpos : 0 < s.step) {fuel : Nat} {i : Int32} {x : Nat} {mask : List Bool}
    (hi : i.toInt = x) (hfuel : mask.length ≤ x + fuel)
    (hfits : Span.Fits ⟨x, s.sup, s.step⟩ mask.length) :
    ∃ filled, range.fillFrom (fuel + 1) i mask = pure filled ∧ filled.length = mask.length ∧
      ∀ j, filled[j]? = some true ↔ mask[j]? = some true ∨ Span.Has ⟨x, s.sup, s.step⟩ j := by
  induction fuel generalizing i x mask with
  | zero =>
    have hend : s.sup ≤ x := by
      by_contra hlt
      have hfirst := (hfits.within x ((Span.has_iff (by omega) x).2 (Or.inl rfl))).1
      omega
    refine ⟨mask, fillFrom_done hholds hi hend 0 mask, rfl, ?_⟩
    intro j
    simp [Span.not_has hend]
  | succ fuel ih =>
    rcases Nat.lt_or_ge x s.sup with hlt | hend
    · have hhas := @Span.has_iff x s.sup s.step hlt
      obtain ⟨hx, hroom⟩ := hfits.within x ((hhas x).2 (Or.inl rfl))
      have hnext : (i + range.step).toInt = (x + s.step : Nat) :=
        toInt_add_of_lt hi hholds.step hroom
      have hlength : (mask.set x true).length = mask.length := List.length_set
      have hrest : Span.Fits ⟨x + s.step, s.sup, s.step⟩ (mask.set x true).length := by
        rw [hlength]
        exact ⟨hfits.lt, fun j hj => hfits.within j ((hhas j).2 (Or.inr hj))⟩
      obtain ⟨filled, hrun, hfilled, hbits⟩ := ih hnext (by omega) hrest
      refine ⟨filled, ?_, by rw [hfilled, hlength], ?_⟩
      · rw [fillFrom_next hholds hi hlt hx hfits.lt, hrun]
      · intro j
        rw [hbits, hhas, List.getElem?_set]
        split
        · next heq =>
          subst heq
          simp [hx]
        · next hne =>
          have hne' : ¬ j = x := fun h => hne h.symm
          simp [hne']
    · refine ⟨mask, fillFrom_done hholds hi hend _ mask, rfl, ?_⟩
      intro j
      simp [Span.not_has hend]

/-- A number outside of the mask is met, or the sum past the largest word. -/
theorem fillFrom_misfit {j fuel : Nat} {i : Int32} {x : Nat} {mask : List Bool} (hi : i.toInt = x)
    (hfuel : mask.length ≤ x + fuel) (hlength : mask.length < 2 ^ 31) (hpos : 0 < s.step)
    (hj : Span.Has ⟨x, s.sup, s.step⟩ j) (hbad : ¬ (j < mask.length ∧ j + s.step < 2 ^ 31)) :
    ∃ e, range.fillFrom (fuel + 1) i mask = throw e := by
  induction fuel generalizing i x mask with
  | zero =>
    have hlt := Span.lt_of_has hj
    have hsize := Int32.toInt_ofNat_of_lt hlength
    exact fillFrom_out hholds (by omega) (Or.inr (by omega)) 0
  | succ fuel ih =>
    have hlt := Span.lt_of_has hj
    rcases Nat.lt_or_ge x mask.length with hx | hout
    · rw [fillFrom_next hholds hi hlt hx hlength]
      rcases Nat.lt_or_ge (x + s.step) (2 ^ 31) with hroom | hwrap
      · have hnext : (i + range.step).toInt = (x + s.step : Nat) :=
          toInt_add_of_lt hi hholds.step hroom
        have hset : (mask.set x true).length = mask.length := List.length_set
        rcases (Span.has_iff hlt j).1 hj with rfl | hlater
        · exact absurd ⟨hx, hroom⟩ hbad
        · apply ih hnext _ _ hlater
          · rwa [hset]
          · rw [hset]
            omega
          · rwa [hset]
      · have hneg := toInt_add_of_le hi hholds.step hwrap
        exact fillFrom_out hholds (by omega) (Or.inl hneg) fuel
    · have hsize := Int32.toInt_ofNat_of_lt hlength
      exact fillFrom_out hholds (by omega) (Or.inr (by omega)) _

/-- A sound span that fits is filled in. -/
theorem fill_fits (hs : s.Sound) {mask : List Bool} (hfits : s.Fits mask.length) :
    ∃ filled, range.fill mask = pure filled ∧ filled.length = mask.length ∧
      ∀ j, filled[j]? = some true ↔ mask[j]? = some true ∨ s.Has j :=
  fillFrom_fits hholds hs.pos hholds.min (by omega) hfits

/-- One that does not is an error. -/
theorem fill_misfit (hs : s.Sound) {mask : List Bool} (hsize : mask.length < 2 ^ 32)
    (hmisfit : ¬ s.Fits mask.length) : ∃ e, range.fill mask = throw e := by
  have hlt := hs.lt
  have hmin := hholds.min
  rcases Nat.lt_or_ge mask.length (2 ^ 31) with hlength | hlarge
  · by_contra hnone
    apply hmisfit
    refine ⟨hlength, ?_⟩
    intro j hj
    by_contra hbad
    exact hnone (fillFrom_misfit hholds hholds.min (by omega) hlength hs.pos hj hbad)
  · -- the mask's size as a signed word is negative
    have hword : (Int32.ofNat mask.length).toInt < 0 := by
      have hwords : Int32.size = 2 ^ 32 := rfl
      rw [Int32.toInt_ofNat', Int.bmod_def, hwords]
      omega
    apply fillFrom_out hholds
    · omega
    · right
      omega

end

/-! ### Lists of items -/

section

variable {mask : List Bool} {r : List Char}

theorem fillToken_taken (hr : r ≠ []) (h : Taken mask.length r) :
    ∃ filled, fillToken mask r = pure filled ∧ filled.length = mask.length ∧
      ∀ i, filled[i]? = some true ↔
        mask[i]? = some true ∨ ∃ s, reading r = some s ∧ s.Has i := by
  obtain ⟨s, hread, hsound, hfits⟩ := h
  obtain ⟨range, hrange, hholds⟩ := ofString_sound r hread hsound
  obtain ⟨filled, hrun, hlength, hbits⟩ := fill_fits hholds hsound hfits
  refine ⟨filled, ?_, hlength, ?_⟩
  · rw [fillToken, if_neg (by simpa using hr), hrange, pure_bind, hrun]
  · intro i
    rw [hbits]
    simp [hread]

theorem fillToken_refuses (hr : r ≠ []) (hsize : mask.length < 2 ^ 32)
    (h : ¬ Taken mask.length r) : ∃ e, fillToken mask r = throw e := by
  rw [fillToken, if_neg (by simpa using hr)]
  by_cases hsound : ∃ s, reading r = some s ∧ s.Sound
  · obtain ⟨s, hread, hs⟩ := hsound
    obtain ⟨range, hrange, hholds⟩ := ofString_sound r hread hs
    rw [hrange, pure_bind]
    apply fill_misfit hholds hs hsize
    intro hfits
    exact h ⟨s, hread, hs, hfits⟩
  · obtain ⟨e, he⟩ := ofString_refuses r fun s hread hs => hsound ⟨s, hread, hs⟩
    rw [he]
    exact ⟨e, rfl⟩

/-- Empty tokens do nothing. -/
theorem foldlM_fillToken_filter (ranges : List (List Char)) (mask : List Bool) :
    ranges.foldlM fillToken mask = (ranges.filter (!·.isEmpty)).foldlM fillToken mask := by
  induction ranges generalizing mask with
  | nil => rfl
  | cons r ranges ih =>
    cases r with
    | nil =>
      rw [List.foldlM_cons, fillToken, if_pos List.length_nil, pure_bind, ih]
      rfl
    | cons c r =>
      rw [List.filter_cons_of_pos rfl, List.foldlM_cons, List.foldlM_cons]
      congr 1
      funext filled
      exact ih filled

theorem parseMask_eq (str : List Char) (size : UInt32) :
    parseMask str size = (items str).foldlM fillToken (List.replicate size.toNat false) := by
  rw [parseMask, tokenize_eq, pure_bind, foldlM_fillToken_filter, filter_fields]
  rfl

theorem foldlM_taken {tokens : List (List Char)} (hne : ∀ r ∈ tokens, r ≠ [])
    (h : ∀ r ∈ tokens, Taken mask.length r) :
    ∃ filled, tokens.foldlM fillToken mask = pure filled ∧ filled.length = mask.length ∧
      ∀ i, filled[i]? = some true ↔
        mask[i]? = some true ∨ ∃ r ∈ tokens, ∃ s, reading r = some s ∧ s.Has i := by
  induction tokens generalizing mask with
  | nil => exact ⟨mask, rfl, rfl, by simp⟩
  | cons r tokens ih =>
    obtain ⟨next, hrun, hnext, hset⟩ :=
      fillToken_taken (hne r List.mem_cons_self) (h r List.mem_cons_self)
    have htail : ∀ q ∈ tokens, Taken next.length q := by
      intro q hq
      rw [hnext]
      exact h q (List.mem_cons_of_mem _ hq)
    obtain ⟨filled, hruns, hlength, hbits⟩ :=
      ih (fun q hq => hne q (List.mem_cons_of_mem _ hq)) htail
    refine ⟨filled, ?_, by rw [hlength, hnext], ?_⟩
    · rw [List.foldlM_cons, hrun, pure_bind, hruns]
    · intro i
      rw [hbits, hset, or_assoc]
      simp only [List.mem_cons, exists_eq_or_imp]

theorem foldlM_refuses {tokens : List (List Char)} (hne : ∀ r ∈ tokens, r ≠ [])
    (hsize : mask.length < 2 ^ 32) (h : ∃ r ∈ tokens, ¬ Taken mask.length r) :
    ∃ e, tokens.foldlM fillToken mask = throw e := by
  induction tokens generalizing mask with
  | nil =>
    obtain ⟨r, hr, -⟩ := h
    cases hr
  | cons r tokens ih =>
    rw [List.foldlM_cons]
    by_cases hhead : Taken mask.length r
    · obtain ⟨next, hrun, hnext, -⟩ := fillToken_taken (hne r List.mem_cons_self) hhead
      rw [hrun, pure_bind]
      apply ih (fun q hq => hne q (List.mem_cons_of_mem _ hq)) (by rwa [hnext])
      obtain ⟨q, hq, hbad⟩ := h
      rcases List.mem_cons.1 hq with rfl | hq
      · exact absurd hhead hbad
      · exact ⟨q, hq, by rwa [hnext]⟩
    · obtain ⟨e, he⟩ := fillToken_refuses (hne r List.mem_cons_self) hsize hhead
      rw [he]
      exact ⟨e, rfl⟩

end

theorem ne_nil_of_mem_items {str item : List Char} (h : item ∈ items str) : item ≠ [] := by
  simpa using (List.mem_filter.1 h).2

theorem Span.Sound.has_min {s : Span} (h : s.Sound) : s.Has s.min :=
  ⟨0, by simp, h.lt⟩

/-- The parser returns the mask of what it reads unless it refuses an item. -/
theorem parseMask_taken {str : List Char} {size : UInt32}
    (h : ∀ item ∈ items str, Taken size.toNat item) :
    ∃ mask, parseMask str size = pure mask ∧ mask.length = size.toNat ∧
      ∀ i, mask[i]? = some true ↔ ∃ item ∈ items str, ∃ s, reading item = some s ∧ s.Has i := by
  have hlength : (List.replicate size.toNat false).length = size.toNat := List.length_replicate
  rw [← hlength] at h
  obtain ⟨mask, hrun, hmask, hbits⟩ := foldlM_taken (fun _ => ne_nil_of_mem_items) h
  refine ⟨mask, by rw [parseMask_eq, hrun], by rw [hmask, hlength], ?_⟩
  intro i
  rw [hbits]
  simp [List.getElem?_replicate]

theorem parseMask_refuses {str : List Char} {size : UInt32}
    (h : ∃ item ∈ items str, ¬ Taken size.toNat item) :
    ∃ e, parseMask str size = throw e := by
  have hlength : (List.replicate size.toNat false).length = size.toNat := List.length_replicate
  rw [← hlength] at h
  rw [parseMask_eq]
  exact foldlM_refuses (fun _ => ne_nil_of_mem_items) (by rw [hlength]; exact size.toNat_lt) h

example : parseMask ['0', ':', '3', ' ', ' ', '5', ':', '8', ':', '2'] 8 =
    pure [true, true, true, false, false, true, false, true] := rfl

/-- What is read of items that denote spans is the mask they denote. -/
theorem denotes_of_taken {str : List Char} {size : Nat} {mask : List Bool}
    (htaken : ∀ item ∈ items str, Taken size item)
    (hdenoted : ∀ item ∈ items str, ∃ s, denoted item = some s) (hlength : mask.length = size)
    (hbits : ∀ i, mask[i]? = some true ↔
      ∃ item ∈ items str, ∃ s, reading item = some s ∧ s.Has i) : Denotes str size mask := by
  have hsame : ∀ item ∈ items str, reading item = denoted item := by
    intro item hitem
    obtain ⟨s, hs⟩ := hdenoted item hitem
    obtain ⟨r, hr, -⟩ := htaken item hitem
    rw [hs, hr, reading_of_denoted hs hr]
  constructor
  · intro item hitem
    obtain ⟨s, hread, hsound, hfits⟩ := htaken item hitem
    refine ⟨s, by rw [← hsame item hitem, hread], ⟨s.min, hsound.has_min⟩, ?_⟩
    intro i hi
    exact (hfits.within i hi).1
  · exact hlength
  · intro i
    rw [hbits]
    constructor
    · rintro ⟨item, hitem, s, hs, hi⟩
      exact ⟨item, hitem, s, by rw [← hsame item hitem, hs], hi⟩
    · rintro ⟨item, hitem, s, hs, hi⟩
      exact ⟨item, hitem, s, by rw [hsame item hitem, hs], hi⟩

/-- The parser is right about a string exactly when every item of it is in the grammar, or it
refuses one. What follows a number in a field is not looked at, empty fields after the first are
dropped, and a sign is taken, so that other strings are read as masks too. -/
theorem parseMask_meets_iff (str : List Char) (size : UInt32) :
    Meets str size ↔ (∃ item ∈ items str, ¬ Taken size.toNat item) ∨
      ∀ item ∈ items str, ∃ s, denoted item = some s := by
  by_cases htaken : ∀ item ∈ items str, Taken size.toNat item
  · obtain ⟨mask, hrun, hlength, hbits⟩ := parseMask_taken htaken
    constructor
    · rintro (⟨e, he⟩ | ⟨_, -, hmask⟩)
      · rw [hrun] at he
        cases he
      · right
        intro item hitem
        obtain ⟨s, hs, -⟩ := hmask.spans item hitem
        exact ⟨s, hs⟩
    · rintro (⟨item, hitem, hbad⟩ | hdenoted)
      · exact absurd (htaken item hitem) hbad
      · exact Or.inr ⟨mask, hrun, denotes_of_taken htaken hdenoted hlength hbits⟩
  · have hrefused : ∃ item ∈ items str, ¬ Taken size.toNat item := by
      simpa using htaken
    exact iff_of_true (Or.inl (parseMask_refuses hrefused)) (Or.inl hrefused)

/-- Of `3x` the digit is taken for the number. -/
theorem parseMask_reads_ahead : ¬ Meets ['3', 'x'] 8 := by
  have hrun : parseMask ['3', 'x'] 8 =
      pure [false, false, false, true, false, false, false, false] := rfl
  have hitem : ['3', 'x'] ∈ items ['3', 'x'] := by decide
  have hdenoted : denoted ['3', 'x'] = none := by decide
  rintro (⟨e, he⟩ | ⟨mask, -, hmask⟩)
  · rw [hrun] at he
    cases he
  · obtain ⟨s, hs, -⟩ := hmask.spans _ hitem
    rw [hdenoted] at hs
    cases hs

end Doppelganger.Config

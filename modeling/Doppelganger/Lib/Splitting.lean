import Mathlib.Data.List.TakeWhile

/-! The pieces of a list between delimiters. -/

namespace Doppelganger.Lib

variable {α : Type}

/-- The pieces that have something in them. -/
noncomputable def pieces (p : α → Bool) (s : List α) : List (List α) :=
  (s.splitOnP p).filter (!·.isEmpty)

/-- What stands before the first delimiter, empty or not, and the pieces after it. -/
noncomputable def fields (p : α → Bool) (s : List α) : List (List α) :=
  s.takeWhile (!p ·) :: pieces p (s.dropWhile (!p ·))

section

variable (p : α → Bool)

@[simp] theorem pieces_nil : pieces p [] = [] := by
  simp [pieces]

theorem pieces_delim {d : α} (h : p d = true) (s : List α) : pieces p (d :: s) = pieces p s := by
  simp [pieces, List.splitOnP_cons_eq_if_modifyHead, h]

/-- Delimiters at the front make no piece. -/
theorem pieces_dropWhile (s : List α) : pieces p (s.dropWhile p) = pieces p s := by
  induction s with
  | nil => rfl
  | cons a s ih =>
    rw [List.dropWhile_cons]
    split
    · next h => rw [ih, pieces_delim p h]
    · rfl

theorem dropWhile_head {q : α → Bool} {s t : List α} {d : α} (h : s.dropWhile q = d :: t) :
    q d = false := by
  have hhead := List.head?_dropWhile_not q s
  rw [h] at hhead
  simpa using hhead

theorem splitOnP_of_dropWhile_nil {s : List α} (h : s.dropWhile (!p ·) = []) :
    s.splitOnP p = [s] := by
  apply List.splitOnP_eq_singleton
  simpa [List.dropWhile_eq_nil_iff] using h

/-- The first split is what stands before the first delimiter. -/
theorem splitOnP_of_dropWhile_cons {s t : List α} {d : α} (h : s.dropWhile (!p ·) = d :: t) :
    s.splitOnP p = s.takeWhile (!p ·) :: t.splitOnP p := by
  have hword : ∀ x ∈ s.takeWhile (!p ·), p x = false := by
    intro x hx
    simpa using List.mem_takeWhile_imp hx
  have hd : p d = true := by simpa using dropWhile_head h
  have hs : s = s.takeWhile (!p ·) ++ d :: t := by
    rw [← h, List.takeWhile_append_dropWhile]
  calc s.splitOnP p = (s.takeWhile (!p ·) ++ d :: t).splitOnP p := by rw [← hs]
    _ = s.takeWhile (!p ·) :: t.splitOnP p :=
      List.splitOnP_append_cons_of_forall_mem hword d hd t

theorem takeWhile_of_dropWhile_nil {q : α → Bool} {s : List α} (h : s.dropWhile q = []) :
    s.takeWhile q = s := by
  rw [List.takeWhile_eq_self_iff]
  exact List.dropWhile_eq_nil_iff.1 h

/-- The fields that have something in them are the pieces. -/
theorem filter_fields (s : List α) : (fields p s).filter (!·.isEmpty) = pieces p s := by
  have hpieces : ∀ t, (pieces p t).filter (!·.isEmpty) = pieces p t := by
    intro t
    simp [pieces]
  cases hrest : s.dropWhile (!p ·) with
  | nil =>
    rw [fields, hrest, takeWhile_of_dropWhile_nil hrest, pieces_nil, pieces,
      splitOnP_of_dropWhile_nil p hrest]
  | cons d t =>
    have hd : p d = true := by simpa using dropWhile_head hrest
    rw [fields, hrest, pieces_delim p hd, List.filter_cons, hpieces, pieces, pieces,
      splitOnP_of_dropWhile_cons p hrest, List.filter_cons]

/-- Past the delimiters at the front the pieces are the fields. -/
theorem pieces_eq_fields {a : α} {s : List α} (h : p a = false) :
    pieces p (a :: s) = fields p (a :: s) := by
  rw [← filter_fields, List.filter_eq_self]
  intro f hf
  rcases List.mem_cons.1 hf with rfl | hf
  · simp [h]
  · exact (List.mem_filter.1 hf).2

/-- Where no split is empty the fields are the splits. -/
theorem fields_eq_splitOnP {s : List α} (h : ∀ f ∈ s.splitOnP p, f ≠ []) :
    fields p s = s.splitOnP p := by
  have hpieces : pieces p s = s.splitOnP p := by
    rw [pieces, List.filter_eq_self]
    intro f hf
    simpa using h f hf
  cases s with
  | nil => simp at h
  | cons a s =>
    cases ha : p a with
    | false => rw [← pieces_eq_fields p ha, hpieces]
    | true =>
      exfalso
      apply h [] _ rfl
      simp [List.splitOnP_cons_eq_if_modifyHead, ha]

theorem findIdx?_none_split {s : List α} (h : s.findIdx? p = none) : s.dropWhile (!p ·) = [] := by
  rw [List.dropWhile_eq_nil_iff]
  simpa using List.findIdx?_eq_none_iff.1 h

/-- The index of a delimiter splits the list, and a delimiter is what is there. -/
theorem findIdx?_some_split {s : List α} {k : Nat} (h : s.findIdx? p = some k) :
    s.takeWhile (!p ·) = s.take k ∧ s.dropWhile (!p ·) = s.drop k ∧
      ∃ d t, s.drop k = d :: t ∧ p d = true := by
  induction s generalizing k with
  | nil => cases h
  | cons a s ih =>
    rw [List.findIdx?_cons] at h
    cases ha : p a with
    | true =>
      simp only [ha, if_true, Option.some.injEq] at h
      simp [← h, ha]
    | false =>
      simp only [ha, Bool.false_eq_true, if_false, Option.map_eq_some_iff] at h
      obtain ⟨l, hl, rfl⟩ := h
      simpa [ha] using ih hl

end

end Doppelganger.Lib

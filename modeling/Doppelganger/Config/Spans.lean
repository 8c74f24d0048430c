import Doppelganger.Config.ParseMask
import Doppelganger.Lib.SignedWords

/-! What an item of a mask denotes, and what the parser reads of it. -/

namespace Doppelganger.Config

open Lib

/-- The items of a blank-separated list. -/
noncomputable def items (str : List Char) : List (List Char) :=
  (str.splitOn ' ').filter (!·.isEmpty)

/-- A decimal number, of digits only. -/
def decimal (s : List Char) : Option Nat :=
  if s ≠ [] ∧ s.all Char.isDigit then some (Nat.ofDigitChars 10 s 0) else none

/-- The numbers `min`, `min + step` and so on below `sup`. -/
structure Span where
  min : Nat
  sup : Nat
  step : Nat

def Span.Has (s : Span) (i : Nat) : Prop :=
  ∃ k, i = s.min + k * s.step ∧ i < s.sup

/-- The span of one, two or three numbers. -/
def span : List Nat → Option Span
  | [n] => some { min := n, sup := n + 1, step := 1 }
  | [min, sup] => some { min, sup, step := 1 }
  | [min, sup, step] => some { min, sup, step }
  | _ => none

/-- An item `n`, `min:sup` or `min:sup:step`. -/
noncomputable def denoted (item : List Char) : Option Span :=
  ((item.splitOn ':').mapM decimal).bind span

/-- The span that the stream finds in an item: empty fields after the first are dropped, and of
a field the number at its front is taken. -/
noncomputable def reading (item : List Char) : Option Span :=
  ((fields (· == ':') item).mapM extract).bind fun n => span (n.map UInt32.toNat)

/-- A span that a signed word holds, with something in it. -/
structure Span.Sound (s : Span) : Prop where
  lt : s.min < s.sup
  sup : s.sup < 2 ^ 31
  pos : 0 < s.step
  step : s.step < 2 ^ 31

/-- Within the mask, and the step after it too is a signed word. -/
structure Span.Fits (s : Span) (size : Nat) : Prop where
  lt : size < 2 ^ 31
  within : ∀ i, s.Has i → i < size ∧ i + s.step < 2 ^ 31

/-- The item is read, and its span fits the mask. -/
def Taken (size : Nat) (item : List Char) : Prop :=
  ∃ s, reading item = some s ∧ s.Sound ∧ s.Fits size

section

theorem isSpace_of_isDigit {c : Char} (h : c.isDigit = true) : isSpace c = false := by
  have hdigit : 48 ≤ c.toNat ∧ c.toNat ≤ 57 := Char.isDigit_iff_toNat.1 h
  simp only [isSpace, Bool.or_eq_false_iff, decide_eq_false_iff_not, Bool.and_eq_false_imp,
    decide_eq_true_eq]
  omega

theorem sign_of_isDigit {c : Char} {s : List Char} (h : c.isDigit = true) :
    sign (c :: s) = (false, c :: s) := by
  unfold sign
  split
  · next hc =>
    cases hc
    cases h
  · next hc =>
    cases hc
    cases h
  · rfl

variable {s : List Char} {v : Nat}

theorem ne_nil_of_decimal (h : decimal s = some v) : s ≠ [] := by
  unfold decimal at h
  split at h
  · next hs => exact hs.1
  · cases h

/-- The stream reads a decimal number as it stands. -/
theorem extract_of_decimal (h : decimal s = some v) {x : UInt32} (hx : extract s = some x) :
    x.toNat = v := by
  unfold decimal at h
  split at h
  · next hs =>
    obtain ⟨hne, hall⟩ := hs
    cases s with
    | nil => exact absurd rfl hne
    | cons c s =>
      have hdigits : ∀ d ∈ c :: s, d.isDigit = true := List.all_eq_true.1 hall
      have hc : c.isDigit = true := hdigits c List.mem_cons_self
      have hspace : (c :: s).dropWhile isSpace = c :: s :=
        List.dropWhile_cons_of_neg (by simp [isSpace_of_isDigit hc])
      have htake : (c :: s).takeWhile Char.isDigit = c :: s :=
        List.takeWhile_eq_self_iff.2 hdigits
      rw [extract, hspace, sign_of_isDigit hc] at hx
      simp only [htake] at hx
      split at hx
      · cases hx
      · next hlt =>
        simp only [Bool.false_eq_true, if_false, Option.some.injEq] at h hx
        have hsize : v < UInt32.size := by
          change v < 2 ^ 32
          omega
        rw [← hx, h]
        exact UInt32.toNat_ofNat_of_lt' hsize
  · cases h

end

/-! ### Reading an item -/

section

/-- Fields that are all decimal numbers are not empty, and the stream reads them as they stand. -/
theorem mapM_decimal_ne_nil {t : List (List Char)} {d : List Nat} (h : t.mapM decimal = some d) :
    ∀ f ∈ t, f ≠ [] := by
  induction t generalizing d with
  | nil => simp
  | cons f t ih =>
    simp only [List.mapM_cons, Option.bind_eq_bind, Option.bind_eq_some_iff] at h
    obtain ⟨v, hv, ds, hds, -⟩ := h
    intro g hg
    rcases List.mem_cons.1 hg with rfl | hg
    · exact ne_nil_of_decimal hv
    · exact ih hds g hg

theorem mapM_extract_of_decimal {t : List (List Char)} {d : List Nat} {n : List UInt32}
    (h : t.mapM decimal = some d) (hn : t.mapM extract = some n) : n.map UInt32.toNat = d := by
  induction t generalizing d n with
  | nil =>
    simp only [List.mapM_nil, Option.pure_def, Option.some.injEq] at h hn
    rw [← h, ← hn, List.map_nil]
  | cons f t ih =>
    simp only [List.mapM_cons, Option.bind_eq_bind, Option.bind_eq_some_iff, Option.pure_def,
      Option.some.injEq] at h hn
    obtain ⟨v, hv, ds, hds, rfl⟩ := h
    obtain ⟨x, hx, xs, hxs, rfl⟩ := hn
    rw [List.map_cons, extract_of_decimal hv hx, ih hds hxs]

/-- Where an item denotes a span the stream finds no other. -/
theorem reading_of_denoted {item : List Char} {s r : Span} (h : denoted item = some s)
    (hr : reading item = some r) : r = s := by
  obtain ⟨d, hd, hs⟩ := Option.bind_eq_some_iff.1 h
  obtain ⟨n, hn, hspan⟩ := Option.bind_eq_some_iff.1 hr
  have hfields : fields (· == ':') item = item.splitOn ':' :=
    fields_eq_splitOnP _ (mapM_decimal_ne_nil hd)
  rw [hfields] at hn
  rw [mapM_extract_of_decimal hd hn, hs] at hspan
  exact (Option.some.inj hspan).symm

end

section

variable {r : List Char}

theorem mapM_number {t : List (List Char)} {n : List UInt32} (h : t.mapM extract = some n) :
    t.mapM (Range.number r) = pure n := by
  induction t generalizing n with
  | nil =>
    cases h
    rfl
  | cons f t ih =>
    simp only [List.mapM_cons, Option.bind_eq_bind, Option.bind_eq_some_iff, Option.pure_def,
      Option.some.injEq] at h
    obtain ⟨x, hx, xs, hxs, rfl⟩ := h
    rw [List.mapM_cons, Range.number, hx, ih hxs]
    rfl

theorem mapM_number_none {t : List (List Char)} (h : t.mapM extract = none) :
    ∃ e, t.mapM (Range.number r) = throw e := by
  induction t with
  | nil => cases h
  | cons f t ih =>
    cases hf : extract f with
    | none =>
      rw [List.mapM_cons, Range.number, hf]
      exact ⟨_, rfl⟩
    | some x =>
      cases ht : t.mapM extract with
      | none =>
        obtain ⟨e, he⟩ := ih ht
        rw [List.mapM_cons, Range.number, hf, he]
        exact ⟨e, rfl⟩
      | some xs => simp [List.mapM_cons, hf, ht] at h

end

/-! ### The constructor of a range -/

/-- The signed fields hold the numbers of the span. -/
structure Range.Holds (range : Range) (s : Span) : Prop where
  min : range.min.toInt = s.min
  sup : range.sup.toInt = s.sup
  step : range.step.toInt = s.step

/-- Three words as signed fields. -/
def Range.ofWords (a b c : UInt32) : Range :=
  { min := a.toInt32, sup := b.toInt32, step := c.toInt32 }

def Span.ofWords (a b c : UInt32) : Span :=
  { min := a.toNat, sup := b.toNat, step := c.toNat }

section

variable (r : List Char) (a b c : UInt32)

theorem checked_sound {range : Range} {s : Span} (h : range.Holds s) (hs : s.Sound) :
    Range.checked r range = pure range := by
  have hmin := h.min
  have hsup := h.sup
  have hstep := h.step
  have hlt := hs.lt
  have hpos := hs.pos
  have hzero : (0 : Int32).toInt = 0 := rfl
  rw [Range.checked, if_neg, if_neg, if_neg]
  · rw [ge_iff_le, Int32.le_iff_toInt_le]
    omega
  · rw [← Int32.toInt_inj]
    omega
  · simp only [Int32.lt_iff_toInt_lt]
    omega

/-- The checks pass only fields that hold a span. -/
theorem checked_refuses {range : Range} (h : ∀ s, range.Holds s → ¬ s.Sound) :
    ∃ e, Range.checked r range = throw e := by
  have hzero : (0 : Int32).toInt = 0 := rfl
  rw [Range.checked]
  split
  · exact ⟨_, rfl⟩
  · next hneg =>
    simp only [Int32.lt_iff_toInt_lt, not_or] at hneg
    split
    · exact ⟨_, rfl⟩
    · next hstep =>
      rw [← Int32.toInt_inj] at hstep
      split
      · exact ⟨_, rfl⟩
      · next hge =>
        rw [ge_iff_le, Int32.le_iff_toInt_le] at hge
        have hsup := range.sup.toInt_lt
        have hbound := range.step.toInt_lt
        exfalso
        apply h ⟨range.min.toInt.toNat, range.sup.toInt.toNat, range.step.toInt.toNat⟩
        · constructor <;> dsimp only <;> omega
        · constructor <;> dsimp only <;> omega

/-- Words read as signed hold the span of the words and no other. -/
theorem holds_words (s : Span) (hs : s.Sound) :
    Range.Holds (.ofWords a b c) s ↔ s = .ofWords a b c := by
  constructor
  · intro h
    cases s with
    | mk min sup step =>
      obtain ⟨hmin, -⟩ := toNat_of_toInt_toInt32 h.min
      obtain ⟨hsup, -⟩ := toNat_of_toInt_toInt32 h.sup
      obtain ⟨hstep, -⟩ := toNat_of_toInt_toInt32 h.step
      rw [Span.ofWords, hmin, hsup, hstep]
  · rintro rfl
    have hlt : a.toNat < b.toNat := hs.lt
    have hsup : b.toNat < 2 ^ 31 := hs.sup
    exact ⟨toInt_toInt32 (by omega), toInt_toInt32 hsup, toInt_toInt32 hs.step⟩

theorem checked_words_sound (hs : (Span.ofWords a b c).Sound) :
    ∃ range, Range.checked r (.ofWords a b c) = pure range ∧ range.Holds (.ofWords a b c) := by
  have hholds := (holds_words a b c _ hs).2 rfl
  exact ⟨_, checked_sound r hholds hs, hholds⟩

theorem checked_words_refuses (hs : ¬ (Span.ofWords a b c).Sound) :
    ∃ e, Range.checked r (.ofWords a b c) = throw e := by
  apply checked_refuses
  intro s hholds hsound
  rw [(holds_words a b c s hsound).1 hholds] at hsound
  exact hs hsound

end

section

variable (r : List Char)

/-- One, two or three numbers are the words of their span. The successor of the largest word wraps
around, and neither span is sound then. -/
theorem ofNumbers_words {n : List UInt32} {s : Span} (h : span (n.map UInt32.toNat) = some s) :
    ∃ a b c : UInt32, Range.ofNumbers r n = Range.checked r (.ofWords a b c) ∧
      (s = .ofWords a b c ∨ ¬ s.Sound ∧ ¬ (Span.ofWords a b c).Sound) := by
  match n, h with
  | [a], h =>
    cases h
    refine ⟨a, a + 1, 1, by rw [Range.ofWords, UInt32.toInt32_add]; rfl, ?_⟩
    have hadd : (a + 1).toNat = (a.toNat + 1) % 2 ^ 32 := UInt32.toNat_add a 1
    rcases Nat.lt_or_ge (a.toNat + 1) (2 ^ 32) with hlt | hge
    · left
      rw [Span.ofWords, hadd, Nat.mod_eq_of_lt hlt]
      rfl
    · right
      constructor
      · intro hs
        have hsup : a.toNat + 1 < 2 ^ 31 := hs.sup
        omega
      · intro hs
        have hlt : a.toNat < (a + 1).toNat := hs.lt
        have ha := a.toNat_lt
        omega
  | [a, b], h =>
    cases h
    exact ⟨a, b, 1, rfl, Or.inl rfl⟩
  | [a, b, c], h =>
    cases h
    exact ⟨a, b, c, rfl, Or.inl rfl⟩

theorem ofNumbers_none {n : List UInt32} (h : span (n.map UInt32.toNat) = none) :
    ∃ e, Range.ofNumbers r n = throw e := by
  match n, h with
  | [], _ => exact ⟨_, rfl⟩
  | _ :: _ :: _ :: _ :: _, _ => exact ⟨_, rfl⟩

theorem ofString_eq {n : List UInt32} (h : (fields (· == ':') r).mapM extract = some n) :
    Range.ofString r = Range.ofNumbers r n := by
  rw [Range.ofString, tokenize_eq, pure_bind, mapM_number h, pure_bind]

/-- The constructor makes the range that the stream finds. -/
theorem ofString_sound {s : Span} (h : reading r = some s) (hs : s.Sound) :
    ∃ range, Range.ofString r = pure range ∧ range.Holds s := by
  obtain ⟨n, hn, hspan⟩ := Option.bind_eq_some_iff.1 h
  obtain ⟨a, b, c, hnumbers, rfl | ⟨hunsound, -⟩⟩ := ofNumbers_words r hspan
  · rw [ofString_eq r hn, hnumbers]
    exact checked_words_sound r a b c hs
  · exact absurd hs hunsound

theorem ofString_refuses (h : ∀ s, reading r = some s → ¬ s.Sound) :
    ∃ e, Range.ofString r = throw e := by
  cases hn : (fields (· == ':') r).mapM extract with
  | none =>
    obtain ⟨e, he⟩ := mapM_number_none (r := r) hn
    rw [Range.ofString, tokenize_eq, pure_bind, he]
    exact ⟨e, rfl⟩
  | some n =>
    rw [ofString_eq r hn]
    cases hspan : span (n.map UInt32.toNat) with
    | none => exact ofNumbers_none r hspan
    | some s =>
      have hunsound : ¬ s.Sound := by
        apply h
        rw [reading, hn, Option.bind_some, hspan]
      obtain ⟨a, b, c, hnumbers, rfl | ⟨-, hwords⟩⟩ := ofNumbers_words r hspan
      · rw [hnumbers]
        exact checked_words_refuses r a b c hunsound
      · rw [hnumbers]
        exact checked_words_refuses r a b c hwords

end

end Doppelganger.Config

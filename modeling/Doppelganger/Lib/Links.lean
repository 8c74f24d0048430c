import Mathlib.Data.List.Nodup
import Mathlib.Logic.Function.Basic

/-! Doubly linked lists threaded through arrays.  `Linked next prev up l` says that the cells of
`l` are chained in order by `prev` and backwards by `next`; pushing a cell in front of a list and
unlinking one from any position keep it. -/

namespace Doppelganger.Lib

variable {ι : Type*}

/-- Each cell of `l` has the cell after it as `prev` and the cell before it as `next`; the first
has `up` as `next`, and the last has no `prev`. -/
def Linked (next prev : ι → Option ι) : Option ι → List ι → Prop
  | _, [] => True
  | up, x :: l => next x = up ∧ prev x = l.head? ∧ Linked next prev (some x) l

/-- The cells met by following `prev` from `start` to its end are those of `l`. -/
def Follows (prev : ι → Option ι) : Option ι → List ι → Prop
  | start, [] => start = none
  | start, x :: l => start = some x ∧ Follows prev (prev x) l

/-- A list whose cells keep their links is still there. -/
theorem Follows.congr {prev prev' : ι → Option ι} : ∀ {l : List ι} {start : Option ι},
    Follows prev start l → (∀ x ∈ l, prev' x = prev x) → Follows prev' start l
  | [], _, h, _ => h
  | x :: l, _, h, hp =>
    ⟨h.1, hp x (by simp) ▸ h.2.congr fun y hy => hp y (by simp [hy])⟩

/-- Where the list goes on after one of its cells. -/
theorem Follows.mid {prev : ι → Option ι} {start : Option ι} {a b : List ι} {x : ι}
    (h : Follows prev start (a ++ x :: b)) : Follows prev (some x) (x :: b) := by
  induction a generalizing start with
  | nil => exact ⟨rfl, h.2⟩
  | cons y a ih => exact ih h.2

/-- A cell is unlinked when the one before it takes over its link. -/
theorem Follows.unlink [DecidableEq ι] {prev prev' : ι → Option ι} {start : Option ι}
    {a b : List ι} {p x : ι} (h : Follows prev start (a ++ p :: x :: b))
    (hd : (a ++ p :: x :: b).Nodup) (hp : prev' p = prev x)
    (hsame : ∀ y, y ≠ p → y ≠ x → prev' y = prev y) : Follows prev' start (a ++ p :: b) := by
  induction a generalizing start with
  | nil =>
    obtain ⟨hstart, -, hb⟩ := h
    rw [List.nil_append, List.nodup_cons, List.nodup_cons] at hd
    refine ⟨hstart, ?_⟩
    rw [hp]
    refine hb.congr fun y hy => hsame y ?_ ?_
    · rintro rfl
      exact hd.1 (List.mem_cons_of_mem _ hy)
    · rintro rfl
      exact hd.2.1 hy
  | cons z a ih =>
    rw [List.cons_append, List.nodup_cons] at hd
    refine ⟨h.1, ?_⟩
    have hz : prev' z = prev z := by
      apply hsame
      · rintro rfl
        exact hd.1 (by simp)
      · rintro rfl
        exact hd.1 (by simp)
    rw [hz]
    exact ih h.2 hd.2

theorem Follows.eq_none {prev : ι → Option ι} {start : Option ι} {l : List ι}
    (h : Follows prev start l) : start = none ↔ l = [] := by
  cases l with
  | nil => exact iff_of_true h rfl
  | cons x l => simp [h.1]

namespace Linked

variable {next prev next' prev' : ι → Option ι} {up : Option ι} {l a b : List ι} {x y t : ι}

theorem follows (h : Linked next prev up l) : Follows prev l.head? l := by
  induction l generalizing up with
  | nil => rfl
  | cons x l ih =>
    obtain ⟨-, hp, hl⟩ := h
    exact ⟨rfl, hp ▸ ih hl⟩

/-- Lists whose cells keep their links stay linked. -/
theorem congr (h : Linked next prev up l) (hn : ∀ x ∈ l, next' x = next x)
    (hp : ∀ x ∈ l, prev' x = prev x) : Linked next' prev' up l := by
  induction l generalizing up with
  | nil => trivial
  | cons x l ih =>
    obtain ⟨hx, hpx, hl⟩ := h
    refine ⟨(hn x (by simp)).trans hx, (hp x (by simp)).trans hpx, ih hl ?_ ?_⟩
    · exact fun y hy => hn y (by simp [hy])
    · exact fun y hy => hp y (by simp [hy])

theorem next_head (h : Linked next prev up l) (hx : l.head? = some x) : next x = up := by
  cases l with
  | nil => simp at hx
  | cons y l =>
    obtain rfl : y = x := by simpa using hx
    exact h.1

theorem getLast?_cons_or (x : ι) (a : List ι) (up : Option ι) :
    (x :: a).getLast?.or up = a.getLast?.or (some x) := by
  cases a with
  | nil => rfl
  | cons y a => rw [List.getLast?_cons_cons, List.getLast?_cons]; rfl

/-- The links of a cell, from the cells around it. -/
theorem links_mid (h : Linked next prev up (a ++ t :: b)) :
    next t = a.getLast?.or up ∧ prev t = b.head? := by
  induction a generalizing up with
  | nil => exact ⟨by simpa using h.1, h.2.1⟩
  | cons x a ih =>
    obtain ⟨hn, hp⟩ := ih h.2.2
    exact ⟨hn.trans (getLast?_cons_or x a up).symm, hp⟩

/-- Along the list, `prev` and `next` are inverse. -/
theorem inverse (h : Linked next prev none l) (hx : x ∈ l) (hy : y ∈ l) :
    prev x = some y ↔ next y = some x := by
  obtain ⟨a, b, rfl⟩ := List.append_of_mem hx
  have hlx := h.links_mid
  constructor
  · intro hp
    obtain ⟨b', rfl⟩ : ∃ b', b = y :: b' := by
      rw [hlx.2] at hp
      exact ⟨b.tail, by cases b <;> simp_all⟩
    have := (show Linked next prev none ((a ++ [x]) ++ y :: b') by simpa using h).links_mid.1
    simpa using this
  · intro hn
    obtain ⟨a', b', he⟩ := List.append_of_mem hy
    rw [he] at h
    have hly := h.links_mid.1
    rw [hn] at hly
    obtain ⟨c, rfl⟩ : ∃ c, a' = c ++ [x] := by
      rcases List.eq_nil_or_concat a' with rfl | ⟨c, z, rfl⟩
      · simp at hly
      · exact ⟨c, by simp at hly; simp [hly]⟩
    have := (show Linked next prev none (c ++ x :: (y :: b')) by simpa using h).links_mid.2
    simpa using this

/-- The first cell of the list is linked to another cell. -/
theorem rehead {up' : Option ι} (h : Linked next prev up l) (hd : l.Nodup)
    (hhead : ∀ y, l.head? = some y → next' y = up')
    (hn : ∀ y ∈ l, l.head? ≠ some y → next' y = next y) (hp : ∀ y ∈ l, prev' y = prev y) :
    Linked next' prev' up' l := by
  cases l with
  | nil => trivial
  | cons y l =>
    obtain ⟨-, hpy, hl⟩ := h
    refine ⟨hhead y rfl, (hp y (by simp)).trans hpy, hl.congr ?_ ?_⟩
    · intro z hz
      have hne : y ≠ z := fun e => (List.nodup_cons.mp hd).1 (e ▸ hz)
      exact hn z (by simp [hz]) (by simpa using hne)
    · exact fun z hz => hp z (by simp [hz])

/-- A cell goes in front of the list. -/
theorem push (h : Linked next prev up l) (hd : l.Nodup) (hnx : next' x = up)
    (hpx : prev' x = l.head?) (hhead : ∀ y, l.head? = some y → next' y = some x)
    (hn : ∀ y ∈ l, l.head? ≠ some y → next' y = next y) (hp : ∀ y ∈ l, prev' y = prev y) :
    Linked next' prev' up (x :: l) :=
  ⟨hnx, hpx, h.rehead hd hhead hn hp⟩

/-- A cell of the list in front is not the last one. -/
theorem getLast?_cons_ne {z : ι} {a b : List ι} (h : z ∉ a ++ b) (hne : a ≠ []) :
    (z :: a).getLast? ≠ some z := by
  obtain ⟨y, a, rfl⟩ := List.exists_cons_of_ne_nil hne
  rw [List.getLast?_cons_cons]
  intro e
  exact h (List.mem_append_left _ (List.mem_of_getLast? e))

theorem getLast?_cons_of_some {z : ι} {a : List ι} (x : ι) (h : a.getLast? = some z) :
    (x :: a).getLast? = some z := by
  cases a with
  | nil => simp at h
  | cons y a => rwa [List.getLast?_cons_cons]

theorem getLast?_cons_ne_of_mem {x z : ι} {a b : List ι} (h : x ∉ b) (hz : z ∈ b)
    (hne : a.getLast? ≠ some z) : (x :: a).getLast? ≠ some z := by
  cases a with
  | nil =>
    intro e
    obtain rfl : x = z := by simpa using e
    exact h hz
  | cons y a => rwa [List.getLast?_cons_cons]

/-- Linking the cell `t` in between: the cell after it has it as `next`, the cell before it has it
as `prev`, and no other cell of the list changes. -/
theorem insert (h : Linked next prev up (a ++ b)) (hd : (a ++ b).Nodup)
    (hnt : next' t = a.getLast?.or up) (hpt : prev' t = b.head?)
    (hnb : ∀ y, b.head? = some y → next' y = some t)
    (hpa : ∀ x, a.getLast? = some x → prev' x = some t)
    (hn : ∀ y ∈ a ++ b, b.head? ≠ some y → next' y = next y)
    (hp : ∀ x ∈ a ++ b, a.getLast? ≠ some x → prev' x = prev x) :
    Linked next' prev' up (a ++ t :: b) := by
  induction a generalizing up with
  | nil => exact push h hd hnt hpt hnb hn fun y hy => hp y hy (by simp)
  | cons x a ih =>
    obtain ⟨hnx, hpx, hl⟩ := h
    obtain ⟨hxab, hdab⟩ := List.nodup_cons.mp hd
    have hxhead : b.head? ≠ some x := fun e => hxab (by simp [List.mem_of_head? e])
    refine ⟨(hn x (by simp) hxhead).trans hnx, ?_, ?_⟩
    · cases a with
      | nil => exact hpa x rfl
      | cons z a => exact (hp x (by simp) (getLast?_cons_ne hxab (List.cons_ne_nil z a))).trans hpx
    · apply ih hl hdab (hnt.trans (getLast?_cons_or x a up))
      · exact fun z hz => hpa z (getLast?_cons_of_some x hz)
      · exact fun z hz => hn z (List.mem_cons_of_mem x hz)
      · exact fun z hz hne => hp z (List.mem_cons_of_mem x hz) (getLast?_cons_ne_of_mem hxab hz hne)

/-- Unlinking the cell `t`: the cell after it takes over its `next`, the cell before it takes
over its `prev`, and no other cell of the list changes. -/
theorem unlink (h : Linked next prev up (a ++ t :: b)) (hd : (a ++ t :: b).Nodup)
    (hnb : ∀ y, b.head? = some y → next' y = next t)
    (hpa : ∀ x, a.getLast? = some x → prev' x = prev t)
    (hn : ∀ y ∈ a ++ b, b.head? ≠ some y → next' y = next y)
    (hp : ∀ x ∈ a ++ b, a.getLast? ≠ some x → prev' x = prev x) :
    Linked next' prev' up (a ++ b) := by
  induction a generalizing up with
  | nil =>
    obtain ⟨hnt, -, hb⟩ := h
    have hdb := (List.nodup_cons.mp hd).2
    exact hb.rehead hdb (fun y hy => (hnb y hy).trans hnt) hn fun y hy => hp y hy (by simp)
  | cons x a ih =>
    obtain ⟨hnx, hpx, hl⟩ := h
    obtain ⟨hxatb, hdatb⟩ := List.nodup_cons.mp hd
    have hxab : x ∉ a ++ b := by
      intro hx
      apply hxatb
      exact List.mem_append.mpr ((List.mem_append.mp hx).imp_right (List.mem_cons_of_mem t))
    have hxhead : b.head? ≠ some x := fun e => hxab (by simp [List.mem_of_head? e])
    refine ⟨(hn x (by simp) hxhead).trans hnx, ?_, ?_⟩
    · cases a with
      | nil => exact (hpa x rfl).trans (show Linked next prev _ ([] ++ t :: b) from hl).links_mid.2
      | cons z a => exact (hp x (by simp) (getLast?_cons_ne hxab (List.cons_ne_nil z a))).trans hpx
    · apply ih hl hdatb
      · exact fun z hz => hpa z (getLast?_cons_of_some x hz)
      · exact fun z hz => hn z (List.mem_cons_of_mem x hz)
      · exact fun z hz hne => hp z (List.mem_cons_of_mem x hz) (getLast?_cons_ne_of_mem hxab hz hne)

end Linked

end Doppelganger.Lib

import Mathlib.Data.List.Basic
import Mathlib.Data.List.Dedup
import Mathlib.Logic.Function.Basic

/-! Least recently used replacement.  A set of `w` ways holds the last `w` things that were touched,
which are the first `w` entries of the stack of all of them. -/

namespace Doppelganger.Lib

open List

variable {α : Type*} [DecidableEq α]

/-- The stack after `a` is touched: the things touched, the last one first. -/
def touch (a : α) (stack : List α) : List α := a :: stack.erase a

/-- A set of `w` ways after an access to `a`, which replaces the last entry when it misses. -/
def lruAccess (w : ℕ) (a : α) (set : List α) : List α := (touch a set).take w

variable {a b : α} {l : List α} {w n : ℕ}

theorem take_erase_take (a : α) (n : ℕ) (l : List α) :
    ((l.take (n + 1)).erase a).take n = (l.erase a).take n := by
  induction l generalizing n with
  | nil => rfl
  | cons b l ih =>
    rw [take_succ_cons, erase_cons, erase_cons]
    split
    · rw [take_take, Nat.min_self]
    · cases n with
      | zero => rfl
      | succ n => rw [take_succ_cons, take_succ_cons, ih]

/-- Every set holds a prefix of the stack. -/
theorem lruAccess_take (w : ℕ) (a : α) (stack : List α) :
    lruAccess w a (stack.take w) = (touch a stack).take w := by
  cases w with
  | zero => rfl
  | succ n =>
    unfold lruAccess touch
    rw [take_succ_cons, take_succ_cons, take_erase_take]

/-- An access to an entry of a full set moves it to the front. -/
theorem lruAccess_of_mem (hl : l.length = w) (ha : a ∈ l) : lruAccess w a l = a :: l.erase a := by
  apply take_of_length_le
  have hpos := length_pos_of_mem ha
  rw [touch, length_cons, length_erase_of_mem ha]
  omega

/-- Another access drops the last entry of a full set. -/
theorem lruAccess_of_not_mem (hl : l.length = w) (hw : 0 < w) (ha : a ∉ l) :
    lruAccess w a l = a :: l.dropLast := by
  obtain ⟨n, rfl⟩ : ∃ n, w = n + 1 := ⟨w - 1, by omega⟩
  unfold lruAccess touch
  rw [erase_of_not_mem ha, take_succ_cons, dropLast_eq_take, hl]
  rfl

/-- An erasure goes along with a map that tells the erased element from the others. -/
theorem map_erase_of_only {β : Type*} [DecidableEq β] {f : α → β} {x : α} :
    ∀ {l : List α}, (∀ y ∈ l, f y = f x → y = x) → (l.map f).erase (f x) = (l.erase x).map f
  | [], _ => rfl
  | y :: l, h => by
    have htail : ∀ z ∈ l, f z = f x → z = x := fun z hz => h z (mem_cons_of_mem y hz)
    by_cases hy : y = x
    · rw [hy, map_cons, erase_cons_head, erase_cons_head]
    · have hfy : f y ≠ f x := fun heq => hy (h y mem_cons_self heq)
      rw [map_cons, erase_cons_tail (by simpa using hfy), erase_cons_tail (by simpa using hy),
        map_erase_of_only htail, map_cons]

/-! ### Stamps -/

/-- What comes later in the stack was touched earlier.  A touch has a stamp, and what was never
touched has the stamp `0`. -/
def Stamped (stamp : α → ℕ) (stack : List α) : Prop :=
  stack.Pairwise fun x y => stamp y < stamp x ∨ stamp x = 0 ∧ stamp y = 0

theorem Stamped.touch {stamp : α → ℕ} {now : ℕ} (h : Stamped stamp l) (hl : l.Nodup)
    (hnow : ∀ x, stamp x < now) : Stamped (Function.update stamp a now) (touch a l) := by
  have hkeep : ∀ x ∈ l.erase a, Function.update stamp a now x = stamp x := by
    intro x hx
    apply Function.update_of_ne
    rintro rfl
    exact hl.not_mem_erase hx
  apply Pairwise.cons
  · intro x hx
    rw [Function.update_self, hkeep x hx]
    exact .inl (hnow x)
  · have hrest : Stamped stamp (l.erase a) := h.sublist erase_sublist
    apply hrest.imp_of_mem
    intro x y hx hy hxy
    rw [hkeep x hx, hkeep y hy]
    exact hxy

omit [DecidableEq α] in
/-- The last entry was touched least recently. -/
theorem Stamped.last {stamp : α → ℕ} (h : Stamped stamp l) (hlast : l.getLast? = some a) :
    ∀ x ∈ l, x ≠ a → stamp a < stamp x ∨ stamp x = 0 ∧ stamp a = 0 := by
  obtain ⟨front, rfl⟩ := getLast?_eq_some_iff.mp hlast
  intro x hx hxa
  rcases mem_append.mp hx with hx | hx
  · exact (pairwise_append.mp h).2.2 x hx a (mem_singleton_self a)
  · exact absurd (mem_singleton.mp hx) hxa

/-! ### Sets that are full from the start -/

/-- The first `n` entries of the stack when it starts with blank entries. -/
def padded (blank : α) (n : ℕ) (stack : List α) : List α := (stack ++ replicate n blank).take n

omit [DecidableEq α] in
theorem length_padded (blank : α) (n : ℕ) (stack : List α) : (padded blank n stack).length = n := by
  rw [padded, length_take, length_append, length_replicate]
  omega

/-- A set that starts with blank entries goes along with the stack. -/
theorem lruAccess_padded {blank : α} (ha : a ≠ blank) (n : ℕ) (stack : List α) :
    lruAccess n a (padded blank n stack) = padded blank n (touch a stack) := by
  have hblank : a ∉ replicate n blank := fun hmem => ha (eq_of_mem_replicate hmem)
  have herase : (stack ++ replicate n blank).erase a = stack.erase a ++ replicate n blank := by
    by_cases hmem : a ∈ stack
    · exact erase_append_left _ hmem
    · rw [erase_append_right _ hmem, erase_of_not_mem hblank, erase_of_not_mem hmem]
  rw [padded, lruAccess_take, touch, herase]
  rfl

omit [DecidableEq α] in
/-- A smaller set holds what the first entries of a larger one hold. -/
theorem mem_take_iff_mem_padded {blank : α} (ha : a ≠ blank) (hw : w ≤ n) (stack : List α) :
    a ∈ stack.take w ↔ a ∈ (padded blank n stack).take w := by
  rw [padded, take_take, Nat.min_eq_left hw, take_append, mem_append]
  constructor
  · exact .inl
  · rintro (hmem | hmem)
    · exact hmem
    · exact absurd (eq_of_mem_replicate (mem_of_mem_take hmem)) ha

/-! ### Sets that are touched in turn -/

/-- A cache of sets, and its misses. -/
structure LruCache (α : Type*) where
  sets : ℕ → List α
  misses : ℕ

/-- An access to `a` in set `set` of a cache of `w` ways. -/
def LruCache.access (w set : ℕ) (a : α) (c : LruCache α) : LruCache α where
  sets := Function.update c.sets set (lruAccess w a (c.sets set))
  misses := if a ∈ c.sets set then c.misses else c.misses + 1

variable {c : LruCache α} {set set' : ℕ}

theorem LruCache.access_sets_self :
    (c.access w set a).sets set = lruAccess w a (c.sets set) := Function.update_self ..

theorem LruCache.access_sets_of_ne (a : α) (h : set' ≠ set) :
    (c.access w set a).sets set' = c.sets set' := Function.update_of_ne h ..

theorem LruCache.access_misses :
    (c.access w set a).misses = if a ∈ c.sets set then c.misses else c.misses + 1 := rfl

/-! ### Stack distances -/

/-- The stack after the things of a list are touched in turn. -/
def touchAll (l stack : List α) : List α := l.foldl (fun stack a => touch a stack) stack

theorem mem_touchAll {stack : List α} : a ∈ touchAll l stack ↔ a ∈ l ∨ a ∈ stack := by
  induction l generalizing stack with
  | nil => simp [touchAll]
  | cons b l ih =>
    rw [touchAll, foldl_cons, ← touchAll, ih, touch, mem_cons, mem_cons]
    by_cases hab : a = b
    · simp [hab]
    · simp [hab, mem_erase_of_ne hab]

theorem nodup_touchAll {stack : List α} (h : stack.Nodup) : (touchAll l stack).Nodup := by
  induction l generalizing stack with
  | nil => exact h
  | cons b l ih => exact ih (nodup_cons.mpr ⟨h.not_mem_erase, h.erase b⟩)

/-- What was touched after `a` is above it. -/
theorem touchAll_above (hl : a ∉ l) {front : List α} (hfront : a ∉ front) (rest : List α) :
    ∃ rest', touchAll l (front ++ a :: rest) = touchAll l front ++ a :: rest' := by
  induction l generalizing front rest with
  | nil => exact ⟨rest, rfl⟩
  | cons b l ih =>
    obtain ⟨hab, hl⟩ := not_or.mp (mem_cons.not.mp hl)
    have hfront' : a ∉ touch b front := by
      rw [touch, mem_cons, not_or]
      exact ⟨hab, fun hmem => hfront (mem_of_mem_erase hmem)⟩
    have htouch : ∃ rest', touch b (front ++ a :: rest) = touch b front ++ a :: rest' := by
      unfold touch
      by_cases hb : b ∈ front
      · exact ⟨rest, by rw [erase_append_left _ hb, cons_append]⟩
      · refine ⟨rest.erase b, ?_⟩
        rw [erase_append_right _ hb, erase_of_not_mem hb, erase_cons_tail (by simpa using hab),
          cons_append]
    obtain ⟨rest', hrest⟩ := htouch
    obtain ⟨rest'', hrest'⟩ := ih hl hfront' rest'
    refine ⟨rest'', ?_⟩
    rw [touchAll, foldl_cons, hrest]
    exact hrest'

/-- A thing is among the first `w` entries of the stack when fewer than `w` others were touched
since it was touched last. -/
theorem mem_take_touchAll : a ∈ (touchAll l []).take w ↔
    ∃ before after, l = before ++ a :: after ∧ a ∉ after ∧ after.dedup.length < w := by
  have hsplit : ∀ before after, a ∉ after →
      (a ∈ (touchAll (before ++ a :: after) []).take w ↔ after.dedup.length < w) := by
    intro before after hafter
    obtain ⟨rest, hrest⟩ := touchAll_above hafter not_mem_nil ((touchAll before []).erase a)
    have hstack : touchAll (before ++ a :: after) [] = touchAll after [] ++ a :: rest := by
      rw [touchAll, foldl_append]
      exact hrest
    have hperm : (touchAll after []).Perm after.dedup := by
      rw [perm_ext_iff_of_nodup (nodup_touchAll nodup_nil) (nodup_dedup after)]
      intro x
      rw [mem_touchAll, mem_dedup, or_iff_left not_mem_nil]
    have hnot : a ∉ touchAll after [] := by
      rw [mem_touchAll, or_iff_left not_mem_nil]
      exact hafter
    rw [hstack, take_append, mem_append, hperm.length_eq,
      or_iff_right fun hmem => hnot (mem_of_mem_take hmem)]
    by_cases hlt : after.dedup.length < w
    · obtain ⟨n, hn⟩ := Nat.exists_eq_add_of_lt hlt
      have hsub : w - after.dedup.length = n + 1 := by omega
      rw [hsub, take_succ_cons]
      exact iff_of_true mem_cons_self hlt
    · rw [Nat.sub_eq_zero_of_le (Nat.le_of_not_lt hlt), take_zero]
      exact iff_of_false not_mem_nil hlt
  constructor
  · intro hmem
    have hl : a ∈ l := by
      have hstack := mem_touchAll.mp (mem_of_mem_take hmem)
      rwa [or_iff_left not_mem_nil] at hstack
    obtain ⟨after, before, hrev, hafter⟩ := eq_append_cons_of_mem (mem_reverse.mpr hl)
    have heq : l = before.reverse ++ a :: after.reverse := by
      rw [← reverse_reverse l, hrev]
      simp
    rw [heq] at hmem
    have hnot : a ∉ after.reverse := by rwa [mem_reverse]
    exact ⟨before.reverse, after.reverse, heq, hnot, (hsplit _ _ hnot).mp hmem⟩
  · rintro ⟨before, after, rfl, hafter, hlt⟩
    exact (hsplit before after hafter).mpr hlt

omit [DecidableEq α] in
/-- A split of the elements that meet a condition comes from one of the whole list. -/
theorem exists_filter_split {p : α → Bool} {a : α} (ha : p a = true) {l : List α}
    {Q : List α → Prop} :
    (∃ before after, l.filter p = before ++ a :: after ∧ a ∉ after ∧ Q after) ↔
      ∃ before after, l = before ++ a :: after ∧ a ∉ after ∧ Q (after.filter p) := by
  constructor
  · rintro ⟨before, after, heq, hafter, hQ⟩
    obtain ⟨l1, l2, rfl, rfl, h2⟩ := filter_eq_append_iff.mp heq
    obtain ⟨l3, l4, rfl, h3, -, rfl⟩ := filter_eq_cons_iff.mp h2
    refine ⟨l1 ++ l3, l4, by rw [append_assoc], fun hmem => hafter ?_, hQ⟩
    exact mem_filter.mpr ⟨hmem, ha⟩
  · rintro ⟨before, after, rfl, hafter, hQ⟩
    refine ⟨before.filter p, after.filter p, ?_, fun hmem => hafter (mem_filter.mp hmem).1, hQ⟩
    rw [filter_append, filter_cons_of_pos ha]

end Doppelganger.Lib

import Mathlib.Data.Finset.Card
import Mathlib.Data.Fintype.Card
import Mathlib.Data.List.Nodup
import Mathlib.Logic.Function.Basic

/-! Roles of threads.  Each thread is at a place of its program, a list has the threads whose
places are of one kind, and of finitely many threads there are so many at each place. -/

namespace Doppelganger.Lib

section Role

open Function

variable {τ π : Type*} {P : π → Prop} {place : τ → π} {l : List τ} {t u : τ} {p : π}

/-- `l` has the threads that are at places of the kind `P`, each of them once. -/
structure Role (P : π → Prop) (place : τ → π) (l : List τ) : Prop where
  nodup : l.Nodup
  mem : ∀ t, t ∈ l ↔ P (place t)

theorem Role.nil (h : ∀ t, ¬ P (place t)) : Role P place [] :=
  ⟨List.nodup_nil, fun t => iff_of_false List.not_mem_nil (h t)⟩

theorem Role.perm {l' : List τ} (h : Role P place l) (hl : l'.Perm l) : Role P place l' :=
  ⟨hl.nodup_iff.mpr h.nodup, fun t => hl.mem_iff.trans (h.mem t)⟩

theorem Role.eq_of_length_le (h : Role P place l) (hl : l.length ≤ 1) (ht : P (place t))
    (hu : P (place u)) : t = u := by
  have ht := (h.mem t).mpr ht
  have hu := (h.mem u).mpr hu
  match l, hl with
  | [x], _ => rw [List.mem_singleton.mp ht, List.mem_singleton.mp hu]

section Moves

variable [DecidableEq τ]

/-- A thread enters the role. -/
theorem Role.enter (h : Role P place l) (hold : ¬ P (place t)) (hnew : P p) :
    Role P (update place t p) (t :: l) := by
  constructor
  case nodup => exact h.nodup.cons fun hmem => hold ((h.mem t).mp hmem)
  case mem =>
    intro u
    rcases eq_or_ne u t with rfl | hu
    · exact iff_of_true List.mem_cons_self (by rwa [update_self])
    · rw [update_of_ne hu, List.mem_cons, or_iff_right hu, h.mem]

theorem Role.enterLast (h : Role P place l) (hold : ¬ P (place t)) (hnew : P p) :
    Role P (update place t p) (l ++ [t]) :=
  (h.enter hold hnew).perm (List.perm_append_singleton t l)

/-- A thread leaves the role. -/
theorem Role.leave (h : Role P place l) (hnew : ¬ P p) :
    Role P (update place t p) (l.erase t) := by
  constructor
  case nodup => exact h.nodup.erase t
  case mem =>
    intro u
    rw [h.nodup.mem_erase_iff]
    rcases eq_or_ne u t with rfl | hu
    · exact iff_of_false (fun hmem => hmem.1 rfl) (by rwa [update_self])
    · rw [update_of_ne hu, and_iff_right hu, h.mem]

theorem Role.leaveFirst (h : Role P place (t :: l)) (hnew : ¬ P p) :
    Role P (update place t p) l := by
  have hrest : Role P (update place t p) ((t :: l).erase t) := h.leave hnew
  rwa [List.erase_cons_head] at hrest

/-- A thread moves within the role, or outside of it. -/
theorem Role.stay (h : Role P place l) (hsame : P p ↔ P (place t)) :
    Role P (update place t p) l := by
  constructor
  case nodup => exact h.nodup
  case mem =>
    intro u
    rcases eq_or_ne u t with rfl | hu
    · rw [update_self, hsame, h.mem]
    · rw [update_of_ne hu, h.mem]

/-- Another thread is still where it was. -/
theorem exists_update (P : π → Prop) (ht : ¬ P (place t)) (h : ∃ u, P (place u)) :
    ∃ u, P (update place t p u) := by
  obtain ⟨u, hu⟩ := h
  refine ⟨u, ?_⟩
  rwa [update_of_ne]
  rintro rfl
  exact ht hu

end Moves

end Role

/-! ### How many -/

section Census

open Finset Function

variable {τ π : Type*} [Fintype τ] [DecidableEq π] {place : τ → π} {t u : τ} {p q k : π}

/-- The number of threads at `p`. -/
def census (place : τ → π) (p : π) : ℕ := (univ.filter fun t => place t = p).card

theorem census_pos_iff : 0 < census place p ↔ ∃ t, place t = p := by
  rw [census, card_pos, filter_nonempty_iff]
  simp

theorem census_pos (h : place t = p) : 0 < census place p := census_pos_iff.mpr ⟨t, h⟩

/-- Two threads at one place are two. -/
theorem eq_of_census_le (h : census place p ≤ 1) (ht : place t = p) (hu : place u = p) : t = u :=
  card_le_one.mp h t (by simpa using ht) u (by simpa using hu)

theorem census_const : census (fun _ : τ => p) k = if k = p then Fintype.card τ else 0 := by
  unfold census
  split
  case isTrue heq => rw [filter_true_of_mem fun _ _ => heq.symm, card_univ]
  case isFalse hne => rw [filter_false_of_mem fun _ _ => fun heq => hne heq.symm, card_empty]

section Moves

variable [DecidableEq τ]

/-- A thread goes from `p` to `q`. -/
theorem census_move (h : place t = p) (hq : q ≠ p) (k : π) : census (update place t q) k =
    if k = q then census place q + 1 else if k = p then census place p - 1 else census place k := by
  unfold census
  split
  case isTrue hk =>
    subst hk
    have hinsert : univ.filter (fun u => update place t k u = k) =
        insert t (univ.filter fun u => place u = k) := by
      ext u
      rcases eq_or_ne u t with rfl | hu
      · simp
      · simp [hu]
    rw [hinsert, card_insert_of_notMem (by simpa [h] using hq.symm)]
  case isFalse hkq =>
    split
    case isTrue hk =>
      subst hk
      have herase : univ.filter (fun u => update place t q u = k) =
          (univ.filter fun u => place u = k).erase t := by
        ext u
        rcases eq_or_ne u t with rfl | hu
        · simp [hq]
        · simp [hu]
      rw [herase, card_erase_of_mem (by simpa using h)]
    case isFalse hkp =>
      congr 1
      ext u
      rcases eq_or_ne u t with rfl | hu
      · simp [h, Ne.symm hkq, Ne.symm hkp]
      · simp [update_of_ne hu]

end Moves

end Census

end Doppelganger.Lib

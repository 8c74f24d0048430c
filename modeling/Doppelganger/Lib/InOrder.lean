import Doppelganger.Lib.Tally
import Mathlib.Data.List.Basic
import Mathlib.Logic.Function.Basic
import Mathlib.Tactic.Common

/-! Things that leave in order, a limited number of them in each cycle: thing `i` may leave from
cycle `ready i` on, and leaves in cycle `leaves i`.  And circular buffers: one that is written in
order has what is known of the last values. -/

namespace Doppelganger.Lib

/-! ### Things that leave in order -/

section InOrder

variable {width n m cycle k : ℕ} {ready leaves : ℕ → ℕ}

/-- The first `n` things leave in order, when they are ready, at most `width` of them in a cycle;
and none waits past the first cycle, from when it is ready and the one before it has left, that has
room for it. -/
structure InOrder (width n : ℕ) (ready leaves : ℕ → ℕ) : Prop where
  notBefore : ∀ i < n, ready i ≤ leaves i
  ordered : ∀ i j, i ≤ j → j < n → leaves i ≤ leaves j
  room : ∀ cycle, tally n leaves cycle ≤ width
  prompt : ∀ i < n, ∀ cycle, ready i ≤ cycle → (∀ j < i, leaves j ≤ cycle) →
    tally i leaves cycle < width → leaves i ≤ cycle

/-- After `n` things, `cycle` is when the last of them left, or 0, and `m` have left in it. -/
structure Front (n : ℕ) (leaves : ℕ → ℕ) (cycle m : ℕ) : Prop where
  past : ∀ i < n, leaves i ≤ cycle
  least : ∀ u, (∀ i < n, leaves i ≤ u) → cycle ≤ u
  here : tally n leaves cycle = m

theorem InOrder.zero : InOrder width 0 ready leaves where
  notBefore i hi := absurd hi (Nat.not_lt_zero i)
  ordered _ j _ hj := absurd hj (Nat.not_lt_zero j)
  room _ := Nat.zero_le _
  prompt i hi := absurd hi (Nat.not_lt_zero i)

theorem Front.zero : Front 0 leaves 0 0 where
  past i hi := absurd hi (Nat.not_lt_zero i)
  least u _ := Nat.zero_le u
  here := rfl

/-- What the next thing has to meet. -/
theorem InOrder.succ (h : InOrder width n ready leaves) (hfront : Front n leaves cycle m)
    (hready : ready n ≤ leaves n) (hle : cycle ≤ leaves n)
    (hroom : tally (n + 1) leaves (leaves n) ≤ width)
    (hprompt : ∀ u, ready n ≤ u → cycle ≤ u → tally n leaves u < width → leaves n ≤ u) :
    InOrder width (n + 1) ready leaves where
  notBefore i hi := by
    rcases Nat.lt_succ_iff_lt_or_eq.mp hi with hi | rfl
    · exact h.notBefore i hi
    · exact hready
  ordered i j hij hj := by
    rcases Nat.lt_succ_iff_lt_or_eq.mp hj with hj | rfl
    · exact h.ordered i j hij hj
    rcases Nat.lt_or_eq_of_le hij with hij | rfl
    · exact Nat.le_trans (hfront.past i hij) hle
    · exact Nat.le_refl _
  room u := by
    by_cases hu : leaves n = u
    · exact hu ▸ hroom
    · rw [tally_succ, if_neg hu]
      exact h.room u
  prompt i hi u hu hpast := by
    rcases Nat.lt_succ_iff_lt_or_eq.mp hi with hi | rfl
    · exact h.prompt i hi u hu hpast
    · exact hprompt u hu (hfront.least u hpast)

/-- The next thing leaves in the cycle of the last. -/
theorem InOrder.same (h : InOrder width n ready leaves) (hfront : Front n leaves cycle m)
    (hready : ready n ≤ cycle) (hm : m < width) (hn : leaves n = cycle) :
    InOrder width (n + 1) ready leaves ∧ Front (n + 1) leaves cycle (m + 1) := by
  have hhere : tally (n + 1) leaves cycle = m + 1 := by
    rw [tally_succ, if_pos hn, hfront.here]
  constructor
  · apply h.succ hfront
    · omega
    · omega
    · rw [hn, hhere]
      exact hm
    · intro u _ hu _
      rwa [hn]
  · refine ⟨fun i hi => ?_, fun u hu => hfront.least u fun i hi => hu i (by omega), hhere⟩
    rcases Nat.lt_succ_iff_lt_or_eq.mp hi with hi | rfl
    · exact hfront.past i hi
    · exact Nat.le_of_eq hn

/-- The next thing leaves in a later cycle. -/
theorem InOrder.later (h : InOrder width n ready leaves) (hfront : Front n leaves cycle m)
    (hwidth : 0 < width) (hready : ready n ≤ leaves n) (hlt : cycle < leaves n)
    (hprompt : ∀ u, ready n ≤ u → cycle ≤ u → tally n leaves u < width → leaves n ≤ u) :
    InOrder width (n + 1) ready leaves ∧ Front (n + 1) leaves (leaves n) 1 := by
  have hnone : tally n leaves (leaves n) = 0 := by
    apply tally_none
    intro i hi
    have := hfront.past i hi
    omega
  have hhere : tally (n + 1) leaves (leaves n) = 1 := by
    rw [tally_succ, if_pos rfl, hnone]
  refine ⟨h.succ hfront hready (Nat.le_of_lt hlt) (by omega) hprompt, ?_,
    fun u hu => hu n (Nat.lt_succ_self n), hhere⟩
  intro i hi
  rcases Nat.lt_succ_iff_lt_or_eq.mp hi with hi | rfl
  · have := hfront.past i hi
    omega
  · exact Nat.le_refl _

/-- No `width + 1` successive things leave in one cycle. -/
theorem InOrder.not_crowded (h : InOrder width n ready leaves) (cycle : ℕ) (hk : k + width < n)
    (hcrowd : ∀ i ≤ width, leaves (k + i) = cycle) : False := by
  have hle : width + 1 ≤ tally n leaves cycle :=
    le_tally (fun i hi => hcrowd i (Nat.le_of_lt_succ hi)) hk
  have := h.room cycle
  omega

end InOrder

/-! ### Circular buffers -/

section Rings

open Function

variable {α β : Type*} {R : α → β → Prop} {SZ idx : ℕ} {buf : ℕ → β} {l : List α}

/-- The position after `idx`. -/
def nextIdx (SZ idx : ℕ) : ℕ := if idx + 1 = SZ then 0 else idx + 1

/-- The buffer, which is written at `idx` next, has values that `R` relates to the last `SZ` items
of `l`, the last one first. -/
structure Ring (R : α → β → Prop) (SZ : ℕ) (buf : ℕ → β) (idx : ℕ) (l : List α) : Prop where
  lt : idx < SZ
  rel : ∀ k < SZ, ∀ a, l[k]? = some a → R a (buf ((idx + (SZ - 1 - k)) % SZ))

theorem Ring.nil (hSZ : 0 < SZ) : Ring R SZ buf 0 [] :=
  ⟨hSZ, fun _ _ _ ha => by simp at ha⟩

theorem nextIdx_mod (n : ℕ) : (nextIdx SZ idx + n) % SZ = (idx + (n + 1)) % SZ := by
  unfold nextIdx
  split
  case isTrue hlast =>
    rw [show idx + (n + 1) = SZ + n by omega, Nat.add_mod_left, Nat.zero_add]
  case isFalse => rw [Nat.add_right_comm, Nat.add_assoc]

/-- A value is written. -/
theorem Ring.push (h : Ring R SZ buf idx l) {a : α} {b : β} (hab : R a b) :
    Ring R SZ (update buf idx b) (nextIdx SZ idx) (a :: l) where
  lt := by
    have := h.lt
    unfold nextIdx
    split <;> omega
  rel := by
    have hlt := h.lt
    intro k hk v hv
    rw [nextIdx_mod]
    cases k with
    | zero =>
      obtain rfl := Option.some.inj hv
      rwa [show idx + (SZ - 1 - 0 + 1) = idx + SZ by omega, Nat.add_mod_right,
        Nat.mod_eq_of_lt hlt, update_self]
    | succ k =>
      have hpos : SZ - 1 - (k + 1) + 1 = SZ - 1 - k := by omega
      have hne : (idx + (SZ - 1 - k)) % SZ ≠ idx := by
        by_cases hwrap : idx + (SZ - 1 - k) < SZ
        · rw [Nat.mod_eq_of_lt hwrap]
          omega
        · rw [Nat.mod_eq_sub_mod (by omega), Nat.mod_eq_of_lt (by omega)]
          omega
      rw [hpos, update_of_ne hne]
      exact h.rel k (by omega) v hv

/-- The value that is overwritten next is of the item `SZ` places back. -/
theorem Ring.oldest (h : Ring R SZ buf idx l) {a : α} (ha : l[SZ - 1]? = some a) :
    R a (buf idx) := by
  have hlt := h.lt
  have hrel := h.rel (SZ - 1) (by omega) a ha
  rwa [Nat.sub_self, Nat.add_zero, Nat.mod_eq_of_lt hlt] at hrel

end Rings

end Doppelganger.Lib

import Doppelganger.Dram.Controller
import Doppelganger.Lib.Largest
import Doppelganger.Lib.Run
import Mathlib.Data.List.Rotate

/-! The ring of activation cycles that `ActWindow` keeps.  Read from `idx` on it is a list, into
which `addActivation` inserts from the back after it drops the head.  The insertion goes wrong when
the new cycle is before every entry that stays. -/

namespace Doppelganger.Dram.ActWindow

open List Lib

/-- The entries, from `idx` on. -/
def order (w : ActWindow) : List Nat := w.buf.rotate w.idx

def Wf (w : ActWindow) : Prop := w.idx < w.buf.length

/-! ### Cells of the ring -/

/-- The cell of the `p`-th entry after `idx`. -/
def cell (w : ActWindow) (p : Nat) : Nat :=
  if w.idx + 1 + p < w.buf.length then w.idx + 1 + p else w.idx + 1 + p - w.buf.length

variable {w : ActWindow} {p q v x a y z : Nat} {t pre suf : List Nat}

theorem cell_eq_mod (hw : w.Wf) (hp : p < w.buf.length) :
    w.cell p = (w.idx + 1 + p) % w.buf.length := by
  unfold Wf at hw
  unfold cell
  split
  case isTrue h => rw [Nat.mod_eq_of_lt h]
  case isFalse h => rw [Nat.mod_eq_sub_mod (by omega), Nat.mod_eq_of_lt (by omega)]

theorem dec_cell : w.dec (w.cell (p + 1)) = w.cell p := by
  unfold dec cell
  grind

theorem dec_cell_zero (hw : w.Wf) : w.dec (w.cell 0) = w.idx := by
  unfold Wf at hw
  unfold dec cell
  grind

theorem cell_last (hw : w.Wf) : w.cell (w.buf.length - 1) = w.idx := by
  unfold Wf at hw
  unfold cell
  grind

theorem cell_inj (hp : p < w.buf.length) (hq : q < w.buf.length)
    (h : w.cell p = w.cell q) : p = q := by
  unfold cell at h
  grind

/-- The ring from the cell after `idx` on. -/
def afterIdx (w : ActWindow) : List Nat := w.buf.rotate (w.idx + 1)

theorem length_order : w.order.length = w.buf.length := length_rotate ..

theorem Wf.exists_order (hw : w.Wf) : ∃ a t, w.order = a :: t := by
  refine exists_cons_of_length_pos ?_
  rw [length_order]
  exact Nat.zero_lt_of_lt hw

theorem minActCycle_eq (hw : w.Wf) (h : w.order = a :: t) : w.minActCycle = a := by
  have hhead : w.order.head? = w.buf[w.idx]? := head?_rotate hw
  rw [h, head?_cons] at hhead
  rw [minActCycle, getD_eq_getElem?_getD, ← hhead, Option.getD_some]

theorem length_afterIdx : w.afterIdx.length = w.buf.length := length_rotate ..

theorem afterIdx_eq (h : w.order = a :: t) : w.afterIdx = t ++ [a] := by
  rw [afterIdx, ← rotate_rotate]
  change w.order.rotate 1 = _
  rw [h]
  simp

theorem getD_cell (hw : w.Wf) (h : w.afterIdx = pre ++ v :: suf) :
    w.buf.getD (w.cell pre.length) 0 = v := by
  have hlen : pre.length < w.buf.length := by
    rw [← length_afterIdx, h]
    simp
  have hget : w.afterIdx[pre.length]? = some v := by simp [h]
  rw [afterIdx, getElem?_rotate hlen, Nat.add_comm] at hget
  rw [getD_eq_getElem?_getD, cell_eq_mod hw hlen, hget, Option.getD_some]

/-- The ring after a store to the `p`-th cell after `idx`. -/
def put (w : ActWindow) (p x : Nat) : ActWindow := { w with buf := w.buf.set (w.cell p) x }

theorem cell_put : (w.put q x).cell p = w.cell p := by simp [put, cell]

theorem Wf.put (hw : w.Wf) : (w.put p x).Wf := by simpa [Wf, ActWindow.put] using hw

theorem afterIdx_put (hw : w.Wf) (h : w.afterIdx = pre ++ v :: suf) :
    (w.put pre.length x).afterIdx = pre ++ x :: suf := by
  have hlen : pre.length < w.buf.length := by
    rw [← length_afterIdx, h]
    simp
  have hset : pre ++ x :: suf = w.afterIdx.set pre.length x := by simp [h]
  rw [hset]
  refine ext_getElem? fun i => ?_
  unfold afterIdx put
  obtain hi | hi := Nat.lt_or_ge i w.buf.length
  · rw [getElem?_rotate (by simpa using hi), getElem?_set, getElem?_set, getElem?_rotate hi,
      length_set, length_rotate, Nat.add_comm i]
    have hcell : w.cell pre.length < w.buf.length := by
      rw [cell_eq_mod hw hlen]
      exact Nat.mod_lt _ (by omega)
    have hiff : w.cell pre.length = (w.idx + 1 + i) % w.buf.length ↔ pre.length = i := by
      rw [← cell_eq_mod hw hi]
      exact ⟨cell_inj hlen hi, fun h => by rw [h]⟩
    simp only [hiff, hlen, hcell, if_true]
  · rw [getElem?_eq_none (by simpa using hi), getElem?_eq_none (by simpa using hi)]

/-! ### The loop -/

/-- One round that moves the entry before `cur`. -/
theorem shift_succ (hw : w.Wf) (h : w.afterIdx = pre ++ z :: v :: suf) (hz : x < z) (fuel : Nat) :
    ∃ moved : ActWindow, moved.idx = w.idx ∧ moved.Wf ∧ moved.afterIdx = pre ++ z :: z :: suf ∧
      shift x (fuel + 1) (w.cell (pre.length + 1)) w =
        shift x fuel (moved.cell pre.length) moved := by
  have h' : w.afterIdx = (pre ++ [z]) ++ v :: suf := by simp [h]
  have hput : (w.put (pre ++ [z]).length z).afterIdx = _ := afterIdx_put hw h'
  rw [length_append, length_singleton] at hput
  have hlen : pre.length + 2 ≤ w.buf.length := by
    rw [← length_afterIdx, h]
    simp
  have hne : w.cell pre.length ≠ w.idx := fun heq => by
    rw [← cell_last hw] at heq
    have := cell_inj (by omega) (by omega) heq
    omega
  refine ⟨w.put (pre.length + 1) z, rfl, hw.put, hput.trans (by simp), ?_⟩
  rw [shift, dec_cell, getD_cell hw h, if_pos hz, if_neg hne, cell_put]
  rfl

/-- The loop passes the entries that are later and stops at one that is not. -/
theorem shift_stop (hw : w.Wf) (h : w.afterIdx = pre ++ y :: (t ++ v :: suf)) (hy : y ≤ x)
    (ht : ∀ z ∈ t, x < z) {fuel : Nat} (hfuel : t.length < fuel) :
    ∃ (moved : ActWindow) (u : Nat), moved.idx = w.idx ∧ moved.Wf ∧
      moved.afterIdx = (pre ++ [y]) ++ u :: (t ++ suf) ∧
      shift x fuel (w.cell (pre.length + 1 + t.length)) w =
        (moved, moved.cell (pre.length + 1)) := by
  induction t using reverseRecOn generalizing w v suf fuel with
  | nil =>
    obtain ⟨fuel, rfl⟩ : ∃ k, fuel = k + 1 := ⟨fuel - 1, by simp at hfuel; omega⟩
    refine ⟨w, v, rfl, hw, by simp [h], ?_⟩
    rw [shift, length_nil, Nat.add_zero, dec_cell, getD_cell hw h, if_neg (by omega)]
  | append_singleton t z ih =>
    obtain ⟨fuel, rfl⟩ : ∃ k, fuel = k + 1 := ⟨fuel - 1, by simp at hfuel; omega⟩
    have h' : w.afterIdx = (pre ++ y :: t) ++ z :: v :: suf := by simp [h]
    obtain ⟨w1, hidx, hw1, h1, hshift⟩ := shift_succ hw h' (ht z (by simp)) fuel
    have h1 : w1.afterIdx = pre ++ y :: (t ++ z :: (z :: suf)) := by simp [h1]
    obtain ⟨moved, u, hidx', hmoved, hafter, heq⟩ :=
      ih hw1 h1 (fun b hb => ht b (by simp [hb])) (by simp at hfuel; omega)
    refine ⟨moved, u, hidx'.trans hidx, hmoved, by simp [hafter], ?_⟩
    have hcell : pre.length + 1 + (t ++ [z]).length = (pre ++ y :: t).length + 1 := by
      simp
      omega
    have hcell' : (pre ++ y :: t).length = pre.length + 1 + t.length := by
      simp
      omega
    rw [hcell, hshift, hcell', heq]

/-- When all entries that stay are later, the loop goes around to the cell of `idx`, which no longer
holds the entry that it started with. -/
theorem shift_around (hw : w.Wf) (h : w.afterIdx = t ++ v :: (suf ++ [z])) (hz : x < z)
    (ht : ∀ b ∈ t, x < b) {fuel : Nat} (hfuel : t.length < fuel) :
    ∃ moved : ActWindow, moved.idx = w.idx ∧ moved.Wf ∧
      moved.afterIdx = z :: (t ++ suf ++ [z]) ∧
      shift x fuel (w.cell t.length) w = (moved, moved.idx) := by
  induction t using reverseRecOn generalizing w v suf fuel with
  | nil =>
    obtain ⟨fuel, rfl⟩ : ∃ k, fuel = k + 1 := ⟨fuel - 1, by simp at hfuel; omega⟩
    have hput : (w.put 0 z).afterIdx = _ := afterIdx_put hw h
    have h' : w.afterIdx = (v :: suf) ++ z :: [] := by simp [h]
    have hlast : w.idx = w.cell (v :: suf).length := by
      rw [← cell_last hw, ← length_afterIdx, h']
      simp
    have hprev : w.buf.getD w.idx 0 = z := hlast ▸ getD_cell hw h'
    refine ⟨w.put 0 z, rfl, hw.put, hput.trans (by simp), ?_⟩
    rw [shift, length_nil, dec_cell_zero hw, hprev, if_pos hz, if_pos rfl]
    rfl
  | append_singleton t b ih =>
    obtain ⟨fuel, rfl⟩ : ∃ k, fuel = k + 1 := ⟨fuel - 1, by simp at hfuel; omega⟩
    have h' : w.afterIdx = t ++ b :: v :: (suf ++ [z]) := by simp [h]
    obtain ⟨w1, hidx, hw1, h1, hshift⟩ := shift_succ hw h' (ht b (by simp)) fuel
    have h1 : w1.afterIdx = t ++ b :: ((b :: suf) ++ [z]) := by simp [h1]
    obtain ⟨moved, hidx', hmoved, hafter, heq⟩ :=
      ih hw1 h1 (fun c hc => ht c (by simp [hc])) (by simp at hfuel; omega)
    refine ⟨moved, hidx'.trans hidx, hmoved, by simp [hafter], ?_⟩
    rw [length_append, length_singleton, hshift, heq]

/-! ### Insertion -/

theorem addActivation_of_shift {moved : ActWindow} (hw : w.Wf) (hmoved : moved.Wf)
    (hidx : moved.idx = w.idx) (hlen : moved.buf.length = w.buf.length)
    (hshift : shift x w.buf.length w.idx w = (moved, moved.cell pre.length))
    (hafter : moved.afterIdx = pre ++ v :: suf) (hx : w.minActCycle ≤ x) :
    ∃ w', w.addActivation x = some w' ∧ w'.Wf ∧ w'.order = pre ++ x :: suf := by
  have hinc : w.inc w.idx = (moved.idx + 1) % (moved.put pre.length x).buf.length := by
    unfold Wf at hw
    rw [hidx, put, length_set, hlen, inc]
    split
    case isTrue h => rw [Nat.mod_eq_of_lt (by omega)]
    case isFalse h =>
      have hlast : w.idx + 1 = w.buf.length := by omega
      rw [hlast, Nat.mod_self]
  refine ⟨⟨(moved.put pre.length x).buf, w.inc w.idx⟩, ?_, ?_, ?_⟩
  · rw [addActivation, if_pos hx, hshift]
    rfl
  · rw [hinc]
    exact Nat.mod_lt _ (Nat.zero_lt_of_lt (show (moved.put pre.length x).idx < _ from hmoved.put))
  · rw [order, hinc, rotate_mod]
    exact afterIdx_put hmoved hafter

/-- An entry that stays is not later: the new one goes after the last of these. -/
theorem addActivation_insert (hw : w.Wf) (hx : a ≤ x) (h : w.order = a :: (pre ++ y :: suf))
    (hy : y ≤ x) (hsuf : ∀ z ∈ suf, x < z) :
    ∃ w', w.addActivation x = some w' ∧ w'.Wf ∧ w'.order = pre ++ y :: x :: suf := by
  have hafter : w.afterIdx = pre ++ y :: (suf ++ a :: []) := by simp [afterIdx_eq h]
  have hlen : w.buf.length = pre.length + 1 + suf.length + 1 := by
    rw [← length_order, h]
    simp
    omega
  obtain ⟨moved, u, hidx, hmoved, hafter', hshift⟩ :=
    shift_stop hw hafter hy hsuf (show suf.length < w.buf.length by omega)
  have hlast : pre.length + 1 + suf.length = w.buf.length - 1 := by omega
  rw [hlast, cell_last hw] at hshift
  have hmlen : moved.buf.length = w.buf.length := by
    rw [← length_afterIdx, hafter', hlen]
    simp
    omega
  have hpre : pre.length + 1 = (pre ++ [y]).length := by simp
  rw [hpre] at hshift
  obtain ⟨w', hw', hwf, horder⟩ := addActivation_of_shift hw hmoved hidx hmlen hshift hafter'
    (minActCycle_eq hw h ▸ hx)
  exact ⟨w', hw', hwf, by simpa using horder⟩

/-- All entries that stay are later: the new one goes to the back, and the last one to the front. -/
theorem addActivation_around (hw : w.Wf) (hx : a ≤ x) (h : w.order = a :: (t ++ [z]))
    (ht : ∀ b ∈ t ++ [z], x < b) :
    ∃ w', w.addActivation x = some w' ∧ w'.Wf ∧ w'.order = z :: (t ++ [x]) := by
  have hz : x < z := ht z (by simp)
  have hafter : w.afterIdx = t ++ z :: a :: [] := by simp [afterIdx_eq h]
  have hlen : w.buf.length = t.length + 2 := by
    rw [← length_order, h]
    simp
  obtain ⟨w1, hidx, hw1, h1, hfirst⟩ := shift_succ hw hafter hz (t.length + 1)
  have h1 : w1.afterIdx = t ++ z :: ([] ++ [z]) := by simp [h1]
  obtain ⟨moved, hidx', hmoved, hafter', hshift⟩ :=
    shift_around hw1 h1 hz (fun b hb => ht b (by simp [hb])) (Nat.lt_succ_self _)
  have hmlen : moved.buf.length = t.length + 2 := by
    rw [← length_afterIdx, hafter']
    simp
  have hcell : moved.idx = moved.cell (z :: t).length := by
    rw [← cell_last hmoved, hmlen]
    rfl
  have hlast : t.length + 1 = w.buf.length - 1 := by omega
  rw [hshift, hlast, cell_last hw, ← hlast, ← hlen, hcell] at hfirst
  have hafter' : moved.afterIdx = (z :: t) ++ z :: [] := by simp [hafter']
  obtain ⟨w', hw', hwf, horder⟩ := addActivation_of_shift hw hmoved (hidx'.trans hidx)
    (hmlen.trans hlen.symm) hfirst hafter' (minActCycle_eq hw h ▸ hx)
  exact ⟨w', hw', hwf, by simpa using horder⟩

/-- A ring of one cell holds the last activation. -/
theorem addActivation_single (hw : w.Wf) (hx : a ≤ x) (h : w.order = [a]) :
    ∃ w', w.addActivation x = some w' ∧ w'.Wf ∧ w'.order = [x] := by
  have hlen : w.buf.length = 1 := by
    rw [← length_order, h]
    rfl
  have hidx : w.idx = w.cell 0 := by
    rw [← cell_last hw, hlen]
  have hmin := minActCycle_eq hw h
  have hshift : shift x w.buf.length w.idx w = (w, w.cell 0) := by
    have hprev : w.buf.getD (w.dec w.idx) 0 = w.minActCycle := by
      have hdec : w.dec w.idx = w.idx := by
        conv_lhs => rw [hidx, dec_cell_zero hw]
      rw [hdec, minActCycle]
    rw [hlen, shift, hprev, hmin, if_neg (by omega), ← hidx]
  have hafter : w.afterIdx = [] ++ a :: [] := by simp [afterIdx_eq h]
  exact addActivation_of_shift hw hw rfl rfl hshift hafter (hmin ▸ hx)

/-- The new activation is not before the entry that becomes the oldest one. -/
def NotOldest (w : ActWindow) (actCycle : Nat) : Prop :=
  w.buf.length = 1 ∨ w.buf.getD (w.inc w.idx) 0 ≤ actCycle

instance (w : ActWindow) (actCycle : Nat) : Decidable (w.NotOldest actCycle) :=
  inferInstanceAs (Decidable (_ ∨ _))

theorem notOldest_cons {b : Nat} (hw : w.Wf) (h : w.order = a :: b :: t) :
    w.NotOldest x ↔ b ≤ x := by
  have hlen : w.buf.length = t.length + 2 := by
    rw [← length_order, h]
    simp
  have hafter : w.afterIdx = [] ++ b :: (t ++ [a]) := by simp [afterIdx_eq h]
  have hinc : w.inc w.idx = w.cell 0 := by
    unfold Wf at hw
    unfold inc cell
    grind
  have hget : w.buf.getD (w.cell 0) 0 = b := getD_cell hw hafter
  rw [NotOldest, hinc, hget]
  exact or_iff_right (by omega)

/-- Every activation takes the place of the oldest entry, whatever the order that it leaves. -/
theorem addActivation_spec (hw : w.Wf) (h : w.order = a :: t) (hx : a ≤ x) :
    ∃ w', w.addActivation x = some w' ∧ w'.Wf ∧ w'.order.Perm (x :: t) ∧
      (w.order.Pairwise (· ≤ ·) → (w'.order.Pairwise (· ≤ ·) ↔ w.NotOldest x)) := by
  obtain hlater | ⟨pre, y, suf, rfl, hy, hsuf⟩ := split_last_le x t
  · obtain rfl | ⟨t, z, rfl⟩ := eq_nil_or_concat' t
    · obtain ⟨w', hw', hwf, horder⟩ := addActivation_single hw hx h
      refine ⟨w', hw', hwf, by rw [horder], fun _ => iff_of_true (by simp [horder]) (.inl ?_)⟩
      rw [← length_order, h]
      rfl
    obtain ⟨w', hw', hwf, horder⟩ := addActivation_around hw hx h hlater
    refine ⟨w', hw', hwf, ?_, fun _ => iff_of_false ?_ ?_⟩
    · rw [horder]
      calc z :: (t ++ [x])
        _ ~ z :: x :: t := (perm_append_singleton x t).cons z
        _ ~ x :: z :: t := Perm.swap x z t
        _ ~ x :: (t ++ [z]) := (perm_append_singleton z t).symm.cons x
    · rw [horder]
      intro hsorted
      have hle : z ≤ x := (pairwise_cons.mp hsorted).1 x (by simp)
      exact absurd (hlater z (by simp)) (by omega)
    · obtain ⟨b, t', ht'⟩ : ∃ b t', t ++ [z] = b :: t' :=
        exists_cons_of_length_pos (by simp)
      rw [notOldest_cons hw (ht' ▸ h)]
      exact Nat.not_le.mpr (hlater b (by simp [ht']))
  · obtain ⟨w', hw', hwf, horder⟩ := addActivation_insert hw hx h hy hsuf
    refine ⟨w', hw', hwf, ?_, fun hsorted => ?_⟩
    · rw [horder]
      calc pre ++ y :: x :: suf
        _ ~ pre ++ x :: y :: suf := (Perm.swap x y suf).append_left pre
        _ ~ x :: (pre ++ y :: suf) := perm_middle
    rw [h, pairwise_cons] at hsorted
    refine iff_of_true ?_ ?_
    · rw [horder]
      exact pairwise_insert hsorted.2 hy hsuf
    · cases pre with
      | nil => exact (notOldest_cons hw h).mpr hy
      | cons b pre =>
        exact (notOldest_cons hw h).mpr (((pairwise_cons.mp hsorted.2).1 y (by simp)).trans hy)

/-! ### Runs -/

/-- A window, and the activations that it was given, the last one first. -/
structure Recorded where
  window : ActWindow
  seen : List Nat
deriving DecidableEq

namespace Recorded

def init (size : Nat) : Recorded := ⟨.init size, []⟩

def addActivation (actCycle : Nat) (r : Recorded) : Option Recorded :=
  (r.window.addActivation actCycle).map fun w => ⟨w, actCycle :: r.seen⟩

/-- All activations, with the zeros that the window starts with. -/
def all (size : Nat) (r : Recorded) : List Nat := r.seen ++ List.replicate size 0

/-- The window holds the largest activations, in circular order. -/
structure Exact (size : Nat) (r : Recorded) : Prop where
  largest : Largest (r.all size) r.window.order
  min : NthLargest size r.window.minActCycle (r.all size)

variable {size : Nat} {r : Recorded}

theorem exact_iff (hw : r.window.Wf) (hlen : r.window.buf.length = size) :
    r.Exact size ↔ Largest (r.all size) r.window.order := by
  refine ⟨Exact.largest, fun h => ⟨h, ?_⟩⟩
  obtain ⟨a, t, ht⟩ := hw.exists_order
  have hsize : size = t.length + 1 := by
    rw [← hlen, ← length_order, ht, length_cons]
  rw [minActCycle_eq hw ht]
  rw [ht] at h
  have hhead := h.head
  rwa [← hsize] at hhead

theorem exact_init (hsize : 0 < size) : (init size).Exact size := by
  have hwf : (init size).window.Wf := by simpa [init, ActWindow.init, Wf] using hsize
  have horder : (init size).window.order = List.replicate size 0 := by
    simp [init, ActWindow.init, order]
  apply (exact_iff hwf (by simp [init, ActWindow.init])).mpr
  rw [horder]
  exact Largest.self (pairwise_replicate.mpr (.inr le_rfl))

/-- An activation that passes the assertion keeps the window exact if and only if it is not the
oldest one. -/
theorem addActivation_exact {actCycle : Nat} (hw : r.window.Wf) (hlen : r.window.buf.length = size)
    (h : r.Exact size) (hassert : r.window.minActCycle ≤ actCycle) :
    ∃ r', r.addActivation actCycle = some r' ∧ r'.window.Wf ∧ r'.window.buf.length = size ∧
      (r'.Exact size ↔ r.window.NotOldest actCycle) := by
  obtain ⟨a, t, ht⟩ := hw.exists_order
  rw [minActCycle_eq hw ht] at hassert
  obtain ⟨w', hw', hwf, hperm, hsorted⟩ := addActivation_spec hw ht hassert
  have hlen' : w'.buf.length = size := by
    rw [← length_order, hperm.length_eq, ← hlen, ← length_order, ht]
    rfl
  have hr' : r.addActivation actCycle = some ⟨w', actCycle :: r.seen⟩ := by
    rw [addActivation, hw']
    rfl
  refine ⟨_, hr', hwf, hlen', ?_⟩
  rw [exact_iff hwf hlen', ← hsorted h.largest.sorted]
  constructor
  case mp => exact fun hnew => hnew.sorted
  case mpr =>
    intro hnew
    exact (ht ▸ h.largest).replace hassert hperm hnew

/-- A window of `size` cells holds the `size` largest activations all along a run if and only if no
activation of the run is before the entry that it leaves as the oldest one. -/
theorem window_exact_iff (size : Nat) (hsize : 0 < size) (cycles : List Nat)
    (hassert : Along addActivation (fun actCycle r => r.window.minActCycle ≤ actCycle) cycles
      (init size)) :
    Always addActivation (Exact size) cycles (init size) ↔
      Along addActivation (fun actCycle r => r.window.NotOldest actCycle) cycles (init size) := by
  refine @always_iff_along _ _ _ _ _ (fun r => r.window.Wf ∧ r.window.buf.length = size) _
    (fun actCycle r hInv h hle => .inr ?_) cycles _ ?_ (exact_init hsize) hassert
  · obtain ⟨r', hr', hwf, hlen, hiff⟩ := addActivation_exact hInv.1 hInv.2 h hle
    exact ⟨r', hr', ⟨hwf, hlen⟩, hiff⟩
  · simpa [init, ActWindow.init, Wf] using hsize

/-- Activations that come out of order, but none before two of the window. -/
theorem window_exact_in_order :
    Always addActivation (Exact 4) [10, 30, 20, 50, 40, 45] (init 4) :=
  (window_exact_iff 4 (by decide) _ (by decide)).mpr (by decide)

/-- The activation at 15 is the oldest one of the window that stays, and goes to its back. -/
theorem window_not_exact : ¬ ∀ size, 0 < size → ∀ cycles,
    Along addActivation (fun actCycle r => r.window.minActCycle ≤ actCycle) cycles (init size) →
      Always addActivation (Exact size) cycles (init size) := by
  intro h
  have hall := h 4 (by decide) [10, 20, 30, 40, 15] (by decide)
  have hrun : run addActivation [10, 20, 30, 40, 15] (init 4) =
      some ⟨⟨[15, 40, 20, 30], 1⟩, [15, 40, 30, 20, 10]⟩ := by decide
  have hsorted := (hall.last hrun).largest.sorted
  revert hsorted
  decide

end Recorded

end Doppelganger.Dram.ActWindow

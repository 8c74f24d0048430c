import Mathlib.Data.List.Perm.Basic
import Mathlib.Data.List.Pairwise
import Mathlib.Order.Defs.PartialOrder
import Mathlib.Logic.Function.Basic

/-! Merging the streams of a list.  An element `x` is of the stream `key x`; what is not put out yet
is `rest`, stream by stream, and an element that is put out is the first one of its stream.  If it
is always one of least weight among the first ones, the output is in order when the streams are. -/

namespace Doppelganger.Lib

open Function

variable {α κ β : Type*}

/-- Each stream of `input` is partly in `out`, and the rest of it in `rest`. -/
def Merging [DecidableEq κ] (key : α → κ) (input out : List α) (rest : κ → List α) :
    Prop :=
  ∀ k, input.filter (key · = k) = out.filter (key · = k) ++ rest k

/-- The output is in order, and nothing that is not put out should come before. -/
structure MergedInOrder [LE β] (weight : α → β) (out : List α) (rest : κ → List α) : Prop where
  sorted : out.Pairwise (weight · ≤ weight ·)
  before : ∀ x ∈ out, ∀ k, ∀ y ∈ rest k, weight x ≤ weight y

namespace Merging

variable [DecidableEq κ] {key : α → κ} {input out : List α}
  {rest : κ → List α} {x : α} {k : κ} {r : List α}

theorem init (key : α → κ) (input : List α) :
    Merging key input [] fun k => input.filter (key · = k) := fun _ => rfl

theorem key_eq (h : Merging key input out rest) (hx : x ∈ rest k) : key x = k := by
  have hmem : x ∈ input.filter (key · = k) := h k ▸ List.mem_append_right _ hx
  simpa using List.of_mem_filter hmem

theorem mem_input (h : Merging key input out rest) (hx : x ∈ rest k) : x ∈ input := by
  have hmem : x ∈ input.filter (key · = k) := h k ▸ List.mem_append_right _ hx
  exact List.mem_of_mem_filter hmem

/-- The first element of a stream is put out. -/
theorem pop (h : Merging key input out rest) (hx : rest k = x :: r) :
    Merging key input (out ++ [x]) (update rest k r) := by
  have hkey : key x = k := h.key_eq (hx ▸ List.mem_cons_self ..)
  intro k'
  rw [h k', List.filter_append]
  rcases eq_or_ne k' k with rfl | hk
  · simp [hkey, hx]
  · simp [hkey, hk, hk.symm]

/-- When nothing is left, the output is a permutation that keeps the order of each stream. -/
theorem perm [DecidableEq α] (h : Merging key input out rest) (hrest : ∀ k, rest k = []) :
    out.Perm input := by
  refine List.perm_iff_count.mpr fun x => ?_
  have hstream := h (key x)
  rw [hrest, List.append_nil] at hstream
  have hcount : ∀ l : List α, l.count x = (l.filter (key · = key x)).count x := fun l =>
    (List.count_filter (by simp)).symm
  rw [hcount out, hcount input, hstream]

/-- What is put out is a part of the list. -/
theorem subperm [DecidableEq α] (h : Merging key input out rest) : out.Subperm input := by
  refine List.subperm_ext_iff.mpr fun x _ => ?_
  have hcount : ∀ l : List α, l.count x = (l.filter (key · = key x)).count x := fun l =>
    (List.count_filter (by simp)).symm
  rw [hcount out, hcount input, h (key x), List.count_append]
  exact Nat.le_add_right _ _

/-- The streams that are left are in order, as the whole ones are. -/
theorem sorted [LE β] {weight : α → β} (h : Merging key input out rest)
    (hsorted : ∀ k, (input.filter (key · = k)).Pairwise (weight · ≤ weight ·)) (k : κ) :
    (rest k).Pairwise (weight · ≤ weight ·) := by
  have hall := hsorted k
  rw [h k] at hall
  exact (List.pairwise_append.mp hall).2.1

end Merging

namespace MergedInOrder

variable [Preorder β] {weight : α → β} {out : List α} {rest : κ → List α} {x : α} {k : κ}
  {r : List α}

theorem init (weight : α → β) (rest : κ → List α) : MergedInOrder weight [] rest :=
  ⟨.nil, nofun⟩

variable [DecidableEq κ]

/-- A first element of least weight is put out. -/
theorem pop (h : MergedInOrder weight out rest)
    (hsorted : ∀ k, (rest k).Pairwise (weight · ≤ weight ·)) (hx : rest k = x :: r)
    (hleast : ∀ k', ∀ y ∈ (rest k').head?, weight x ≤ weight y) :
    MergedInOrder weight (out ++ [x]) (update rest k r) := by
  have hall : ∀ k', ∀ y ∈ rest k', weight x ≤ weight y := by
    intro k' y hy
    obtain ⟨f, l, hfl⟩ := List.exists_cons_of_ne_nil (List.ne_nil_of_mem hy)
    have hf := hleast k' f (by simp [hfl])
    have hrest := hsorted k'
    rw [hfl] at hy hrest
    rcases List.mem_cons.mp hy with rfl | hy
    · exact hf
    · exact le_trans hf ((List.pairwise_cons.mp hrest).1 y hy)
  have hleft : ∀ k', ∀ y ∈ update rest k r k', y ∈ rest k' := by
    intro k' y hy
    rcases eq_or_ne k' k with rfl | hk
    · rw [update_self] at hy
      exact hx ▸ List.mem_cons_of_mem x hy
    · rwa [update_of_ne hk] at hy
  constructor
  case sorted =>
    refine List.pairwise_append.mpr ⟨h.sorted, List.pairwise_singleton .., fun y hy z hz => ?_⟩
    rw [List.mem_singleton.mp hz]
    exact h.before y hy k x (hx ▸ List.mem_cons_self ..)
  case before =>
    intro y hy k' z hz
    rcases List.mem_append.mp hy with hy | hy
    · exact h.before y hy k' z (hleft k' z hz)
    · rw [List.mem_singleton.mp hy]
      exact hall k' z (hleft k' z hz)

end MergedInOrder

end Doppelganger.Lib

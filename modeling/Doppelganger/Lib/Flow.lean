import Mathlib.Data.List.Induction

/-! Straight-line code over registers: from which registers before it the value of a register after
it is computed. -/

namespace Doppelganger.Lib

/-- Operations that read registers and write registers. -/
class Operation (ι : Type*) (ρ : outParam Type*) where
  uses : ι → List ρ
  defs : ι → List ρ

export Operation (uses defs)

section Flow

variable {ι ρ : Type*} [Operation ι ρ]

/-- The value of `x` before the operations goes into that of `o` after them: an operation takes it
to the registers that it writes, and it stays where it is until it is overwritten. -/
def Flows : List ι → ρ → ρ → Prop
  | [], x, o => x = o
  | u :: l, x, o => (x ∈ uses u ∧ ∃ w ∈ defs u, Flows l w o) ∨ (x ∉ defs u ∧ Flows l x o)

instance Flows.decidable [DecidableEq ρ] : (l : List ι) → (x o : ρ) →
    Decidable (Flows l x o)
  | [], x, o => inferInstanceAs (Decidable (x = o))
  | u :: l, x, o =>
    have (y : ρ) : Decidable (Flows l y o) := Flows.decidable l y o
    inferInstanceAs (Decidable
      ((x ∈ uses u ∧ ∃ w ∈ defs u, Flows l w o) ∨
        (x ∉ defs u ∧ Flows l x o)))

variable {l l' : List ι} {u : ι} {x o : ρ}

theorem flows_cons : Flows (u :: l) x o ↔
    (x ∈ uses u ∧ ∃ w ∈ defs u, Flows l w o) ∨
      (x ∉ defs u ∧ Flows l x o) := Iff.rfl

theorem flows_append : Flows (l ++ l') x o ↔
    ∃ r, Flows l x r ∧ Flows l' r o := by
  induction l generalizing x with
  | nil => exact ⟨fun h => ⟨x, rfl, h⟩, fun ⟨_, rfl, h⟩ => h⟩
  | cons u l ih =>
    rw [List.cons_append, flows_cons]
    constructor
    · rintro (⟨hread, w, hw, h⟩ | ⟨hkeep, h⟩)
      · obtain ⟨r, hr, ho⟩ := ih.mp h
        exact ⟨r, .inl ⟨hread, w, hw, hr⟩, ho⟩
      · obtain ⟨r, hr, ho⟩ := ih.mp h
        exact ⟨r, .inr ⟨hkeep, hr⟩, ho⟩
    · rintro ⟨r, ⟨hread, w, hw, hr⟩ | ⟨hkeep, hr⟩, ho⟩
      · exact .inl ⟨hread, w, hw, ih.mpr ⟨r, hr, ho⟩⟩
      · exact .inr ⟨hkeep, ih.mpr ⟨r, hr, ho⟩⟩

theorem flows_singleton : Flows [u] x o ↔
    (x ∈ uses u ∧ o ∈ defs u) ∨ (x = o ∧ o ∉ defs u) := by
  rw [flows_cons]
  constructor
  · rintro (⟨hread, w, hw, rfl⟩ | ⟨hkeep, rfl⟩)
    · exact .inl ⟨hread, hw⟩
    · exact .inr ⟨rfl, hkeep⟩
  · rintro (⟨hread, hw⟩ | ⟨rfl, hkeep⟩)
    · exact .inl ⟨hread, o, hw, rfl⟩
    · exact .inr ⟨hkeep, rfl⟩

/-- What the last operation adds. -/
theorem flows_concat : Flows (l ++ [u]) x o ↔
    (o ∈ defs u ∧ ∃ r ∈ uses u, Flows l x r) ∨
      (o ∉ defs u ∧ Flows l x o) := by
  rw [flows_append]
  constructor
  · rintro ⟨r, hr, h⟩
    obtain ⟨hread, hw⟩ | ⟨rfl, hkeep⟩ := flows_singleton.mp h
    · exact .inl ⟨hw, r, hread, hr⟩
    · exact .inr ⟨hkeep, hr⟩
  · rintro (⟨hw, r, hread, hr⟩ | ⟨hkeep, hr⟩)
    · exact ⟨r, hr, flows_singleton.mpr (.inl ⟨hread, hw⟩)⟩
    · exact ⟨o, hr, flows_singleton.mpr (.inr ⟨rfl, hkeep⟩)⟩

/-- A register that is not written keeps its value. -/
theorem flows_unwritten (h : ∀ u ∈ l, o ∉ defs u) : Flows l x o ↔ x = o := by
  induction l using List.reverseRecOn with
  | nil => exact Iff.rfl
  | append_singleton l u ih =>
    rw [flows_concat, ih fun v hv => h v (List.mem_append_left _ hv)]
    have hu : o ∉ defs u := h u (List.mem_append_right _ (List.mem_singleton_self u))
    simp only [hu, false_and, not_false_eq_true, true_and, false_or]

/-- Only the last operation that writes a register counts. -/
theorem flows_last (hw : o ∈ defs u) (h : ∀ v ∈ l', o ∉ defs v) :
    Flows (l ++ u :: l') x o ↔ ∃ r ∈ uses u, Flows l x r := by
  rw [List.append_cons, flows_append]
  constructor
  · rintro ⟨r, hr, hl'⟩
    obtain rfl := (flows_unwritten h).mp hl'
    obtain ⟨-, hread⟩ | ⟨hkeep, -⟩ := flows_concat.mp hr
    · exact hread
    · exact absurd hw hkeep
  · exact fun hread => ⟨o, flows_concat.mpr (.inl ⟨hw, hread⟩), (flows_unwritten h).mpr rfl⟩

end Flow

end Doppelganger.Lib

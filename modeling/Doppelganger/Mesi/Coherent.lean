import Doppelganger.Mesi.Hierarchy
import Mathlib.Data.List.Forall2
import Mathlib.Tactic.Common

/-! Coherence of a hierarchy: each directory entry agrees with the states of the children.  A tree
is coherent when the subtree in the hole of a frame is and the frames are. -/

namespace Doppelganger.Mesi

open MESIState List

/-- What the state of a cache and its entry say about a child with the sharer bit `sharer`. -/
structure Agrees (s : MESIState) (e : Entry) (sharer : Bool) (child : MESIState) : Prop where
  exclusive : child = M ∨ child = E ↔ e.isExclusive = true ∧ sharer = true
  shared : child = S ↔ e.isExclusive = false ∧ sharer = true
  own_exclusive : child = M ∨ child = E → s = M ∨ s = E
  own_valid : child = S → s ≠ I

/-- The count of an entry is right, and an entry with several sharers is not exclusive. -/
structure Entry.Counted (e : Entry) : Prop where
  count : e.numSharers = e.sharers.count true
  several : 1 < e.numSharers → e.exclusive = false

inductive Coherent : Node → Prop
  | terminal (s : MESIState) : Coherent (.terminal s)
  | cache {s : MESIState} {e : Entry} {cs : List Node} : e.Counted →
      Forall₂ (fun b c => Agrees s e b c.state) e.sharers cs → (∀ c ∈ cs, Coherent c) →
      Coherent (.cache s e cs)

/-- The frame is coherent around a child in state `st` with the sharer bit `b`; `lb` and `rb` are
the sharer bits of the other children. -/
structure Frame.Fits (f : Frame) (lb rb : List Bool) (b : Bool) (st : MESIState) : Prop where
  sharers : f.entry.sharers = lb ++ b :: rb
  counted : f.entry.Counted
  left : Forall₂ (fun b c => Agrees f.state f.entry b c.state) lb f.left
  right : Forall₂ (fun b c => Agrees f.state f.entry b c.state) rb f.right
  hole : Agrees f.state f.entry b st
  coherent : ∀ c ∈ f.left ++ f.right, Coherent c

/-- The ancestors are coherent around a child in state `st`. -/
def Above : List Frame → MESIState → Prop
  | [], _ => True
  | f :: fs, st => (∃ lb rb b, f.Fits lb rb b st) ∧ Above fs f.state

/-- Some cache of the tree has the line in state `M`. -/
inductive HoldsM : Node → Prop
  | here {n : Node} : n.state = M → HoldsM n
  | child {s : MESIState} {e : Entry} {cs : List Node} {c : Node} : c ∈ cs → HoldsM c →
      HoldsM (.cache s e cs)

/-- Some ancestor, or a cache beside the way to the root, has the line in state `M`. -/
def AboveM (fs : List Frame) : Prop :=
  ∃ f ∈ fs, f.state = M ∨ ∃ c ∈ f.left ++ f.right, HoldsM c

section

variable {s st : MESIState} {e : Entry} {b : Bool} {cs : List Node} {n c : Node} {f : Frame}
  {fs : List Frame} {lb rb : List Bool}

@[simp] theorem Node.state_setState (st : MESIState) (n : Node) : (n.setState st).state = st := by
  cases n <;> rfl

@[simp] theorem Node.setState_setState (s st : MESIState) (n : Node) :
    (n.setState st).setState s = n.setState s := by
  cases n <;> rfl

namespace Agrees

theorem of_invalid (h : Agrees s e b I) : b = false := by
  have h1 := h.exclusive
  have h2 := h.shared
  cases b <;> cases hx : e.isExclusive <;> simp_all

theorem of_bit (h : Agrees s e false st) : st = I := by
  have h1 := h.exclusive
  have h2 := h.shared
  cases st <;> simp_all

/-- A child that is not a sharer is in state `I`, whatever else the entry says. -/
theorem absent (s : MESIState) (e : Entry) : Agrees s e false I := by
  constructor <;> simp

/-- A child that shares the line, in an entry that is not exclusive. -/
theorem sharing (hs : s ≠ I) (he : e.isExclusive = false) : Agrees s e true S := by
  constructor <;> simp [he, hs]

theorem owning (hs : s = M ∨ s = E) (he : e.isExclusive = true) (hst : st = M ∨ st = E) :
    Agrees s e true st := by
  rcases hst with rfl | rfl <;> constructor <;> simp [he, hs]

/-- A bit under an exclusive entry is that of an owner. -/
theorem owner (h : Agrees s e true st) (he : e.isExclusive = true) :
    (st = M ∨ st = E) ∧ (s = M ∨ s = E) :=
  have hst := h.exclusive.mpr ⟨he, rfl⟩
  ⟨hst, h.own_exclusive hst⟩

/-- A bit under an entry that is not exclusive is that of a sharer. -/
theorem sharer (h : Agrees s e true st) (he : e.isExclusive = false) : st = S ∧ s ≠ I :=
  have hst := h.shared.mpr ⟨he, rfl⟩
  ⟨hst, h.own_valid hst⟩

theorem not_invalid (h : Agrees s e true st) : s ≠ I := by
  cases he : e.isExclusive
  · exact (h.sharer he).2
  · rcases (h.owner he).2 with rfl | rfl <;> simp

/-- A cache that gains rights still agrees with its children. -/
theorem raise (h : Agrees s e b st) {s' : MESIState} (hs : s ≠ I → s' ≠ I)
    (hx : s = M ∨ s = E → s' = M ∨ s' = E) : Agrees s' e b st :=
  ⟨h.exclusive, h.shared, fun hst => hx (h.own_exclusive hst), fun hst => hs (h.own_valid hst)⟩

/-- A child that turns from `E` to `M` still agrees with the entry. -/
theorem dirtied (h : Agrees s e b E) : Agrees s e b M :=
  ⟨by simpa using h.exclusive, by simpa using h.shared, by simpa using h.own_exclusive, by simp⟩

end Agrees

theorem coherent_cache : Coherent (.cache s e cs) ↔ e.Counted ∧
    Forall₂ (fun b c => Agrees s e b c.state) e.sharers cs ∧ ∀ c ∈ cs, Coherent c := by
  constructor
  · rintro ⟨⟩
    exact ⟨‹_›, ‹_›, ‹_›⟩
  · rintro ⟨h1, h2, h3⟩
    exact .cache h1 h2 h3

/-- A list related to `as ++ x :: bs` splits at `x`. -/
theorem forall₂_split {α β : Type*} {R : α → β → Prop} : ∀ {as bs : List β} {x : β} {l : List α},
    Forall₂ R l (as ++ x :: bs) →
    ∃ l1 a l2, l = l1 ++ a :: l2 ∧ Forall₂ R l1 as ∧ R a x ∧ Forall₂ R l2 bs
  | [], _, _, _, .cons ha h => ⟨[], _, _, rfl, .nil, ha, h⟩
  | _ :: as, _, _, _, .cons hb h => by
    obtain ⟨l1, a, l2, rfl, h1, ha, h2⟩ := forall₂_split h
    exact ⟨_ :: l1, a, l2, rfl, .cons hb h1, ha, h2⟩

theorem forall₂_and_right {α β : Type*} {R : α → β → Prop} {p : β → Prop} :
    ∀ {l : List α} {u : List β}, Forall₂ R l u → (∀ x ∈ u, p x) →
    Forall₂ (fun a x => R a x ∧ p x) l u
  | _, _, .nil, _ => .nil
  | _, _, .cons h hs, hp =>
    .cons ⟨h, hp _ (by simp)⟩ (forall₂_and_right hs fun x hx => hp x (by simp [hx]))

theorem agrees_of_mem {bs : List Bool} (hall : Forall₂ (fun b c => Agrees s e b c.state) bs cs)
    (hc : c ∈ cs) : ∃ b ∈ bs, Agrees s e b c.state := by
  obtain ⟨as, as', rfl⟩ := append_of_mem hc
  obtain ⟨l, b, l', rfl, -, hb, -⟩ := forall₂_split hall
  exact ⟨b, by simp, hb⟩

/-- A frame and a subtree make a coherent cache when each is coherent. -/
theorem coherent_plug :
    Coherent (f.plug n) ↔ (∃ lb rb b, f.Fits lb rb b n.state) ∧ Coherent n := by
  rw [Frame.plug, coherent_cache]
  constructor
  · rintro ⟨hc, hall, hcs⟩
    obtain ⟨lb, b, rb, hs, hl, hb, hr⟩ := forall₂_split hall
    refine ⟨⟨lb, rb, b, hs, hc, hl, hr, hb, fun c hc => hcs c ?_⟩, hcs n (by simp)⟩
    simp only [mem_append, mem_cons] at hc ⊢
    tauto
  · rintro ⟨⟨lb, rb, b, hf⟩, hn⟩
    refine ⟨hf.counted, ?_, fun c hc => ?_⟩
    · rw [hf.sharers]
      exact rel_append hf.left (.cons hf.hole hf.right)
    · simp only [mem_append, mem_cons] at hc
      rcases hc with hc | rfl | hc
      · exact hf.coherent c (mem_append_left _ hc)
      · exact hn
      · exact hf.coherent c (mem_append_right _ hc)

/-- The whole tree is coherent when the node is, and its ancestors are around it. -/
theorem coherent_plugAll : ∀ {fs : List Frame} {n : Node},
    Coherent (plugAll fs n) ↔ Above fs n.state ∧ Coherent n
  | [], n => by simp [plugAll, Above]
  | f :: fs, n => by
    have h := @coherent_plugAll fs (f.plug n)
    rw [coherent_plug] at h
    rw [show plugAll (f :: fs) n = plugAll fs (f.plug n) from rfl, h, Above]
    exact ⟨fun ⟨ha, hf, hn⟩ => ⟨⟨hf, ha⟩, hn⟩, fun ⟨⟨hf, ha⟩, hn⟩ => ⟨ha, hf, hn⟩⟩

theorem holdsM_plug :
    HoldsM (f.plug n) ↔ (f.state = M ∨ ∃ c ∈ f.left ++ f.right, HoldsM c) ∨ HoldsM n := by
  constructor
  · intro h
    cases h with
    | here h => exact .inl (.inl h)
    | child hc h =>
      simp only [mem_append, mem_cons] at hc
      rcases hc with hc | rfl | hc
      · exact .inl (.inr ⟨_, mem_append_left _ hc, h⟩)
      · exact .inr h
      · exact .inl (.inr ⟨_, mem_append_right _ hc, h⟩)
  · rintro ((h | ⟨c, hc, h⟩) | h)
    · exact .here h
    · refine .child ?_ h
      simp only [mem_append, mem_cons] at hc ⊢
      tauto
    · exact .child (by simp) h

theorem holdsM_plugAll : ∀ {fs : List Frame} {n : Node},
    HoldsM (plugAll fs n) ↔ AboveM fs ∨ HoldsM n
  | [], n => by simp [plugAll, AboveM]
  | f :: fs, n => by
    have habove : AboveM (f :: fs) ↔
        (f.state = M ∨ ∃ c ∈ f.left ++ f.right, HoldsM c) ∨ AboveM fs := by
      simp only [AboveM, mem_cons, exists_eq_or_imp]
    rw [show plugAll (f :: fs) n = plugAll fs (f.plug n) from rfl, holdsM_plugAll, holdsM_plug,
      habove, ← or_assoc, @or_comm (AboveM fs)]

/-- A cache that is not in `E` or `M` has no dirty copy below. -/
theorem Coherent.clean (h : Coherent n) : n.state = I ∨ n.state = S → ¬HoldsM n := by
  induction h with
  | terminal s =>
    rintro hs ⟨hm⟩
    rw [hm] at hs
    simp at hs
  | @cache s e cs hc hall hcs ih =>
    intro hs hm
    cases hm with
    | here hm =>
      rw [hm] at hs
      simp at hs
    | @child _ _ _ c hmem hm =>
      obtain ⟨b, -, hb⟩ := agrees_of_mem hall hmem
      refine ih c hmem ?_ hm
      by_contra hne
      have hown : c.state = M ∨ c.state = E := by cases hst : c.state <;> simp_all
      have hs : s = I ∨ s = S := hs
      rcases hb.own_exclusive hown with rfl | rfl <;> simp at hs

end

end Doppelganger.Mesi

import Doppelganger.Intrusive.InList
import Doppelganger.Lib.Links

/-! Sequences of calls.  Each call links one element in or unlinks one, somewhere in a list, and
what the links of the other elements become follows from where that is. -/

namespace Doppelganger.Intrusive

open Function Lib

variable {α κ : Type*}

/-- The lists in the heap are those of `s`. -/
structure Represents (h : Heap α κ) (s : κ → List α) : Prop where
  linked : ∀ l, Linked (fun x => (h.node x).prev) (fun x => (h.node x).next) none (s l)
  nodup : ∀ l, (s l).Nodup
  owner : ∀ x l, (h.node x).owner = some l ↔ x ∈ s l
  list : ∀ l, h.list l = ⟨(s l).head?, (s l).getLast?, (s l).length⟩
  free : ∀ x, (h.node x).owner = none → h.Unlinked x

/-- In `g` the element `e` is between those of `a` and those of `b`. -/
structure LinkedIn [DecidableEq α] (h g : Heap α κ) (l : κ) (a : List α) (e : α) (b : List α) :
    Prop where
  next : ∀ x, (g.node x).next =
    if x = e then b.head? else if a.getLast? = some x then some e else (h.node x).next
  prev : ∀ x, (g.node x).prev =
    if x = e then a.getLast? else if b.head? = some x then some e else (h.node x).prev
  owner : ∀ x, (g.node x).owner = if x = e then some l else (h.node x).owner

/-- In `g` the element `e` between those of `a` and those of `b` is gone. -/
structure LinkedOut [DecidableEq α] (h g : Heap α κ) (a : List α) (e : α) (b : List α) : Prop where
  next : ∀ x, (g.node x).next =
    if x = e then none else if a.getLast? = some x then b.head? else (h.node x).next
  prev : ∀ x, (g.node x).prev =
    if x = e then none else if b.head? = some x then a.getLast? else (h.node x).prev
  owner : ∀ x, (g.node x).owner = if x = e then none else (h.node x).owner

theorem init_represents : Represents (Heap.init : Heap α κ) fun _ => [] where
  linked _ := trivial
  nodup _ := List.nodup_nil
  owner _ _ := iff_of_false nofun List.not_mem_nil
  list _ := rfl
  free _ _ := ⟨rfl, rfl, rfl⟩

namespace Represents

variable {h g : Heap α κ} {s : κ → List α} {a b : List α} {e x p : α} {l l' : κ}

theorem links (hr : Represents h s) (hs : s l = a ++ e :: b) :
    (h.node e).next = b.head? ∧ (h.node e).prev = a.getLast? := by
  have hlinked := hr.linked l
  rw [hs] at hlinked
  obtain ⟨hprev, hnext⟩ := hlinked.links_mid
  exact ⟨hnext, by simpa using hprev⟩

/-- An element is at an end of its list if and only if no other one is on that side. -/
theorem ends (hr : Represents h s) (hs : s l = a ++ e :: b) :
    ((h.list l).head = some e ↔ a = []) ∧ ((h.list l).tail = some e ↔ b = []) := by
  have hnodup := hr.nodup l
  rw [hs, List.nodup_middle, List.nodup_cons, List.mem_append, not_or] at hnodup
  obtain ⟨⟨ha, hb⟩, -⟩ := hnodup
  rw [hr.list, hs]
  constructor
  · cases a with
    | nil => simp
    | cons x a => simpa using Ne.symm (List.ne_of_not_mem_cons ha)
  · rw [List.getLast?_append_of_ne_nil _ (List.cons_ne_nil e b)]
    cases b with
    | nil => simp
    | cons x b =>
      rw [List.getLast?_cons_cons]
      exact iff_of_false (fun heq => hb (List.mem_of_getLast? heq)) (List.cons_ne_nil x b)

/-- `prev` is the inverse of `next`. -/
theorem inverse (hr : Represents h s) (x y : α) :
    (h.node x).next = some y ↔ (h.node y).prev = some x := by
  constructor
  case mp =>
    intro hxy
    cases hx : (h.node x).owner with
    | none => exact nomatch (hr.free x hx).1.symm.trans hxy
    | some l =>
      obtain ⟨a, b, hs⟩ := List.append_of_mem ((hr.owner x l).mp hx)
      rw [(hr.links hs).1] at hxy
      obtain ⟨b', rfl⟩ := List.head?_eq_some_iff.mp hxy
      have hs' : s l = (a ++ [x]) ++ y :: b' := by simp [hs]
      simpa using (hr.links hs').2
  case mpr =>
    intro hyx
    cases hy : (h.node y).owner with
    | none => exact nomatch (hr.free y hy).2.1.symm.trans hyx
    | some l =>
      obtain ⟨a, b, hs⟩ := List.append_of_mem ((hr.owner y l).mp hy)
      rw [(hr.links hs).2] at hyx
      obtain ⟨a', rfl⟩ := List.getLast?_eq_some_iff.mp hyx
      have hs' : s l = a' ++ x :: (y :: b) := by simp [hs]
      exact (hr.links hs').1

/-- An element is in one list. -/
theorem disjoint (hr : Represents h s) (hx : x ∈ s l) (hx' : x ∈ s l') : l = l' :=
  Option.some.inj (((hr.owner x l).mpr hx).symm.trans ((hr.owner x l').mpr hx'))

theorem notMem (hr : Represents h s) (hfree : (h.node x).owner = none) : x ∉ s l := fun hx =>
  nomatch hfree.symm.trans ((hr.owner x l).mpr hx)

/-- The elements around a place in a list. -/
theorem near (hs : s l = a ++ b) (hx : a.getLast? = some x ∨ b.head? = some x) : x ∈ s l := by
  rw [hs]
  rcases hx with hx | hx
  · exact List.mem_append_left _ (List.mem_of_getLast? hx)
  · exact List.mem_append_right _ (List.mem_of_head? hx)

/-- One list changes, and the elements of the others keep their links. -/
theorem relist [DecidableEq κ] (hr : Represents h s) {new : List α}
    (hlinked : Linked (fun x => (g.node x).prev) (fun x => (g.node x).next) none new)
    (hnodup : new.Nodup) (howner : ∀ x l', (g.node x).owner = some l' ↔ x ∈ update s l new l')
    (hlist : g.list = update h.list l ⟨new.head?, new.getLast?, new.length⟩)
    (hfar : ∀ l', l' ≠ l → ∀ x ∈ s l', (g.node x).next = (h.node x).next ∧
      (g.node x).prev = (h.node x).prev)
    (hfree : ∀ x, (g.node x).owner = none → g.Unlinked x) : Represents g (update s l new) := by
  constructor
  case linked =>
    intro l'
    rcases eq_or_ne l' l with rfl | hl
    · rw [update_self]
      exact hlinked
    · rw [update_of_ne hl]
      exact (hr.linked l').congr (fun x hx => (hfar l' hl x hx).2) fun x hx => (hfar l' hl x hx).1
  case nodup =>
    intro l'
    rcases eq_or_ne l' l with rfl | hl
    · rw [update_self]
      exact hnodup
    · rw [update_of_ne hl]
      exact hr.nodup l'
  case owner => exact howner
  case list =>
    intro l'
    rw [hlist]
    rcases eq_or_ne l' l with rfl | hl
    · rw [update_self, update_self]
    · rw [update_of_ne hl, update_of_ne hl, hr.list]
  case free => exact hfree

variable [DecidableEq α]

/-! ### Linking one element in -/

/-- The other lists keep their links, as does an element that is in no list. -/
theorem linkedIn_far (hs : s l = a ++ b) (hin : LinkedIn h g l a e b) (hxe : x ≠ e)
    (hx : x ∉ s l) : (g.node x).next = (h.node x).next ∧ (g.node x).prev = (h.node x).prev := by
  constructor
  · rw [hin.next, if_neg hxe, if_neg fun ha => hx (near hs (.inl ha))]
  · rw [hin.prev, if_neg hxe, if_neg fun hb => hx (near hs (.inr hb))]

theorem linkedIn_linked (hr : Represents h s) (hs : s l = a ++ b) (hnot : e ∉ a ++ b)
    (hin : LinkedIn h g l a e b) :
    Linked (fun x => (g.node x).prev) (fun x => (g.node x).next) none (a ++ e :: b) := by
  have hlinked := hr.linked l
  have hnodup := hr.nodup l
  rw [hs] at hlinked hnodup
  have hne : ∀ {x}, x ∈ a ++ b → x ≠ e := fun hx heq => hnot (heq ▸ hx)
  have hnear : ∀ {x}, a.getLast? = some x ∨ b.head? = some x → x ∈ a ++ b := fun hx =>
    hs ▸ near hs hx
  refine hlinked.insert hnodup ?_ ?_ ?_ ?_ ?_ ?_
  · rw [hin.prev, if_pos rfl, Option.or_none]
  · rw [hin.next, if_pos rfl]
  · intro y hy
    rw [hin.prev, if_neg (hne (hnear (.inr hy))), if_pos hy]
  · intro y hy
    rw [hin.next, if_neg (hne (hnear (.inl hy))), if_pos hy]
  · intro y hy hhead
    rw [hin.prev, if_neg (hne hy), if_neg hhead]
  · intro y hy hlast
    rw [hin.next, if_neg (hne hy), if_neg hlast]

theorem linkedIn [DecidableEq κ] (hr : Represents h s) (hs : s l = a ++ b)
    (hfree : (h.node e).owner = none) (hin : LinkedIn h g l a e b)
    (hlist : g.list = update h.list l
      ⟨(a ++ e :: b).head?, (a ++ e :: b).getLast?, (h.list l).elems + 1⟩) :
    Represents g (update s l (a ++ e :: b)) := by
  have hnot : ∀ {l'}, e ∉ s l' := hr.notMem hfree
  have hab : e ∉ a ++ b := hs ▸ hnot
  have hnodup : (a ++ e :: b).Nodup := by
    rw [List.nodup_middle]
    exact List.nodup_cons.mpr ⟨hab, hs ▸ hr.nodup l⟩
  apply hr.relist (hr.linkedIn_linked hs hab hin) hnodup
  case howner =>
    intro x l'
    rw [hin.owner]
    rcases eq_or_ne l' l with rfl | hl
    · rw [update_self, List.mem_append, List.mem_cons, or_left_comm, ← List.mem_append, ← hs,
        ← hr.owner]
      split
      case isTrue hx => exact iff_of_true rfl (.inl hx)
      case isFalse hx => exact (or_iff_right hx).symm
    · rw [update_of_ne hl, ← hr.owner]
      split
      case isTrue hx =>
        rw [hx, hfree]
        exact iff_of_false (fun heq => hl (Option.some.inj heq).symm) nofun
      case isFalse => rfl
  case hlist =>
    rw [hlist]
    simp [hr.list, hs, Nat.add_assoc]
  case hfar =>
    intro l' hl x hx
    exact linkedIn_far hs hin (fun heq => hnot (heq ▸ hx)) fun hx' => hl (hr.disjoint hx hx')
  case hfree =>
    intro x hx
    rw [hin.owner] at hx
    split at hx
    case isTrue => exact nomatch hx
    case isFalse hxe =>
      obtain ⟨hnext, hprev, -⟩ := hr.free x hx
      obtain ⟨hsame, hsame'⟩ := linkedIn_far hs hin hxe (hr.notMem hx)
      exact ⟨hsame.trans hnext, hsame'.trans hprev, by rw [hin.owner, if_neg hxe, hx]⟩

theorem linkPrev (hr : Represents h s) (hs : s l = a ++ p :: b) (hfree : (h.node e).owner = none) :
    ∃ g, h.linkPrev e p l = some g ∧ LinkedIn h g l (a ++ [p]) e b ∧ g.list = h.list := by
  obtain ⟨hnext, hprev, -⟩ := hr.free e hfree
  obtain ⟨hpnext, -⟩ := hr.links hs
  have hpe : p ≠ e := fun heq => hr.notMem hfree (l := l) (by simp [hs, heq])
  rw [Heap.linkPrev, if_pos ⟨hfree, hprev, hnext⟩, hpnext]
  cases b with
  | nil =>
    refine ⟨_, rfl, ⟨fun x => ?_, fun x => ?_, fun x => by simp⟩, rfl⟩
    · rcases eq_or_ne x e with rfl | hx
      · simp [hpe.symm, hnext]
      · simp [hx, eq_comm]
    · simp
  | cons n b =>
    have hs' : s l = (a ++ [p]) ++ n :: b := by simp [hs]
    have hnprev : (h.node n).prev = some p := by simpa using (hr.links hs').2
    have hne : n ≠ e := fun heq => hr.notMem hfree (l := l) (by simp [hs, heq])
    rw [List.head?_cons, Option.elim_some, if_pos hnprev]
    refine ⟨_, rfl, ⟨fun x => ?_, fun x => ?_, fun x => by simp⟩, rfl⟩
    · rcases eq_or_ne x e with rfl | hx
      · simp [hpe.symm]
      · simp [hx, eq_comm]
    · simp [eq_comm]

/-! ### Unlinking one -/

theorem linkedOut_far (hs : s l = a ++ e :: b) (hout : LinkedOut h g a e b) (hxe : x ≠ e)
    (hx : x ∉ s l) : (g.node x).next = (h.node x).next ∧ (g.node x).prev = (h.node x).prev := by
  have hnear : ∀ {x}, a.getLast? = some x ∨ b.head? = some x → x ∈ s l := by
    rintro x (hx | hx)
    · exact near hs (.inl hx)
    · exact hs ▸ List.mem_append_right _ (List.mem_cons_of_mem _ (List.mem_of_head? hx))
  constructor
  · rw [hout.next, if_neg hxe, if_neg fun ha => hx (hnear (.inl ha))]
  · rw [hout.prev, if_neg hxe, if_neg fun hb => hx (hnear (.inr hb))]

theorem linkedOut_linked (hr : Represents h s) (hs : s l = a ++ e :: b) (hnot : e ∉ a ++ b)
    (hout : LinkedOut h g a e b) :
    Linked (fun x => (g.node x).prev) (fun x => (g.node x).next) none (a ++ b) := by
  have hlinked := hr.linked l
  have hnodup := hr.nodup l
  obtain ⟨hnext, hprev⟩ := hr.links hs
  rw [hs] at hlinked hnodup
  have hne : ∀ {x}, x ∈ a ++ b → x ≠ e := fun hx heq => hnot (heq ▸ hx)
  refine hlinked.unlink hnodup ?_ ?_ ?_ ?_
  · intro y hy
    rw [hout.prev, if_neg (hne (List.mem_append_right _ (List.mem_of_head? hy))), if_pos hy, hprev]
  · intro y hy
    rw [hout.next, if_neg (hne (List.mem_append_left _ (List.mem_of_getLast? hy))), if_pos hy,
      hnext]
  · intro y hy hhead
    rw [hout.prev, if_neg (hne hy), if_neg hhead]
  · intro y hy hlast
    rw [hout.next, if_neg (hne hy), if_neg hlast]

theorem linkedOut [DecidableEq κ] (hr : Represents h s) (hs : s l = a ++ e :: b)
    (hout : LinkedOut h g a e b) (hlist : g.list = update h.list l
      ⟨(a ++ b).head?, (a ++ b).getLast?, (h.list l).elems - 1⟩) :
    Represents g (update s l (a ++ b)) := by
  have hmem : e ∈ s l := hs ▸ List.mem_append_right _ (List.mem_cons_self ..)
  obtain ⟨hab, hdab⟩ : e ∉ a ++ b ∧ (a ++ b).Nodup := by
    rw [← List.nodup_cons, ← List.nodup_middle, ← hs]
    exact hr.nodup l
  apply hr.relist (hr.linkedOut_linked hs hab hout) hdab
  case howner =>
    intro x l'
    rw [hout.owner]
    rcases eq_or_ne l' l with rfl | hl
    · rw [update_self]
      split
      case isTrue hx => exact iff_of_false nofun (hx ▸ hab)
      case isFalse hx =>
        rw [hr.owner, hs, List.mem_append, List.mem_append, List.mem_cons, or_iff_right hx]
    · rw [update_of_ne hl, ← hr.owner]
      split
      case isTrue hx =>
        rw [hx, (hr.owner e l).mpr hmem]
        exact iff_of_false nofun fun heq => hl (Option.some.inj heq).symm
      case isFalse => rfl
  case hlist =>
    rw [hlist]
    simp [hr.list, hs, ← Nat.add_assoc]
  case hfar =>
    intro l' hl x hx
    exact linkedOut_far hs hout (ne_of_mem_of_not_mem hx fun he => hl (hr.disjoint he hmem))
      fun hx' => hl (hr.disjoint hx hx')
  case hfree =>
    intro x hx
    rcases eq_or_ne x e with rfl | hxe
    · exact ⟨by rw [hout.next, if_pos rfl], by rw [hout.prev, if_pos rfl], hx⟩
    · rw [hout.owner, if_neg hxe] at hx
      obtain ⟨hnext, hprev, -⟩ := hr.free x hx
      obtain ⟨hsame, hsame'⟩ := linkedOut_far hs hout hxe (hr.notMem hx)
      exact ⟨hsame.trans hnext, hsame'.trans hprev, by rw [hout.owner, if_neg hxe, hx]⟩

/-- An element that is not its own neighbour is bypassed on both sides. -/
theorem bypass_links (hnext : (g.node e).next ≠ some e) :
    ((g.bypass e).node x).next =
      (if (g.node e).prev = some x then (g.node e).next else (g.node x).next) ∧
    ((g.bypass e).node x).prev =
      (if (g.node e).next = some x then (g.node e).prev else (g.node x).prev) ∧
    ((g.bypass e).node x).owner = (g.node x).owner ∧ (g.bypass e).list = g.list := by
  cases hn : (g.node e).next with
  | none =>
    cases hp : (g.node e).prev with
    | none => simp [Heap.bypass, hn, hp]
    | some p => simp [Heap.bypass, hn, hp, eq_comm]
  | some n =>
    have hne : e ≠ n := fun heq => hnext (heq ▸ hn)
    cases hp : (g.node e).prev with
    | none => simp [Heap.bypass, hn, hp, hne, eq_comm]
    | some p => simp [Heap.bypass, hn, hp, hne, eq_comm]

theorem unlink [DecidableEq κ] (hr : Represents h s) (hs : s l = a ++ e :: b)
    (hnode : g.node = h.node) :
    ∃ g', g.unlink e l = some g' ∧ LinkedOut h g' a e b ∧ g'.list = g.list := by
  obtain ⟨hnext, hprev⟩ := hr.links hs
  have hmem : e ∈ s l := hs ▸ List.mem_append_right _ (List.mem_cons_self ..)
  have hb : e ∉ b := by
    have hnodup := hr.nodup l
    rw [hs, List.nodup_middle, List.nodup_cons] at hnodup
    exact fun he => hnodup.1 (List.mem_append_right _ he)
  rw [← hnode] at hnext hprev
  have hlinks : ∀ x, _ := fun x => bypass_links (x := x)
    (hnext ▸ fun heq => hb (List.mem_of_head? heq))
  have howner : (g.node e).owner = some l := by rw [hnode, hr.owner]; exact hmem
  rw [hnext, hprev, hnode] at hlinks
  refine ⟨(((g.bypass e).setNext e none).setPrev e none).setOwner e none, ?_,
    ⟨fun x => ?_, fun x => ?_, fun x => ?_⟩, ?_⟩
  · simp [Heap.unlink, hlinks, ← hnode, howner]
  · simp [hlinks]
  · simp [hlinks]
  · simp [hlinks]
  · exact (hlinks e).2.2.2

/-! ### The calls -/

variable [DecidableEq κ]

theorem pushFront (hr : Represents h s) (hfree : (h.node e).owner = none) :
    ∃ g, h.pushFront l e = some g ∧ Represents g (update s l (e :: s l)) := by
  obtain ⟨hnext, hprev, -⟩ := hr.free e hfree
  rw [Heap.pushFront, if_pos (hr.free e hfree), hr.list]
  cases hs : s l with
  | nil =>
    refine ⟨_, rfl, hr.linkedIn (a := []) (b := []) hs hfree ⟨fun x => ?_, fun x => ?_, ?_⟩ ?_⟩
    · rcases eq_or_ne x e with rfl | hx <;> simp [*]
    · rcases eq_or_ne x e with rfl | hx <;> simp [*]
    · simp
    · simp [hr.list, hs]
  | cons head rest =>
    obtain ⟨-, hhead⟩ := hr.links (a := []) hs
    have howner : (h.node head).owner = some l := (hr.owner head l).mpr (by simp [hs])
    have hne : head ≠ e := fun heq => hr.notMem hfree (l := l) (by simp [hs, heq])
    rw [List.head?_cons, Option.elim_some, if_pos ⟨hhead, howner⟩]
    refine ⟨_, rfl, hr.linkedIn (a := []) hs hfree ⟨fun x => ?_, fun x => ?_, ?_⟩ ?_⟩
    · simp
    · rcases eq_or_ne x e with rfl | hx
      · simp [hne.symm, hprev]
      · simp [hx, eq_comm]
    · simp
    · simp [hr.list, hs]

theorem pushBack (hr : Represents h s) (hfree : (h.node e).owner = none) :
    ∃ g, h.pushBack l e = some g ∧ Represents g (update s l (s l ++ [e])) := by
  obtain ⟨hnext, hprev, -⟩ := hr.free e hfree
  rw [Heap.pushBack, if_pos (hr.free e hfree), hr.list]
  rcases List.eq_nil_or_concat (s l) with hs | ⟨rest, tail, hs⟩
  · rw [hs]
    refine ⟨_, rfl, hr.linkedIn (a := []) (b := []) hs hfree ⟨fun x => ?_, fun x => ?_, ?_⟩ ?_⟩
    · rcases eq_or_ne x e with rfl | hx <;> simp [*]
    · rcases eq_or_ne x e with rfl | hx <;> simp [*]
    · simp
    · simp [hr.list, hs]
  · rw [List.concat_eq_append] at hs
    obtain ⟨g, hg, hin, hlist⟩ := hr.linkPrev hs hfree
    have hcons : rest ++ [tail] ≠ [] := by simp
    simp only [hs, List.head?_eq_none_iff, hcons, if_false, List.getLast?_concat, Option.bind_some,
      hg, Option.map_some]
    refine ⟨_, rfl, hr.linkedIn (b := []) (by rw [hs, List.append_nil])
      hfree ⟨hin.next, hin.prev, hin.owner⟩ ?_⟩
    simp [hlist, hr.list, hs]

/-- What comes after the first of the elements that are the same. -/
theorem insertAfter_append (hp : p ∉ a) :
    Intrusive.insertAfter p e (a ++ p :: b) = a ++ p :: e :: b := by
  induction a with
  | nil => simp [Intrusive.insertAfter]
  | cons x a ih =>
    obtain ⟨hx, ha⟩ := List.ne_and_not_mem_of_not_mem_cons hp
    simp [Intrusive.insertAfter, Ne.symm hx, ih ha]

theorem insertAfter (hr : Represents h s) (hfree : (h.node e).owner = none)
    (hp : (h.node p).owner = some l) : ∃ g, h.insertAfter l p e = some g ∧
      Represents g (update s l (Intrusive.insertAfter p e (s l))) := by
  obtain ⟨a, b, hs⟩ := List.append_of_mem ((hr.owner p l).mp hp)
  obtain ⟨g, hg, hin, hlist⟩ := hr.linkPrev hs hfree
  have htail := (hr.ends hs).2
  have hpa : p ∉ a := by
    have hnodup := hr.nodup l
    rw [hs, List.nodup_middle, List.nodup_cons] at hnodup
    exact fun ha => hnodup.1 (List.mem_append_left b ha)
  have hgoal : a ++ p :: e :: b = (a ++ [p]) ++ e :: b := by simp
  rw [Heap.insertAfter, if_pos ⟨hfree, hp⟩, hg, hs, insertAfter_append hpa, hgoal, Option.map_some,
    hlist]
  simp only [htail]
  refine ⟨_, rfl, hr.linkedIn (by simp [hs]) hfree ?_ ?_⟩
  · split
    case isTrue => exact ⟨hin.next, hin.prev, hin.owner⟩
    case isFalse => exact ⟨hin.next, hin.prev, hin.owner⟩
  · cases b with
    | nil => simp [hlist, hr.list, hs]
    | cons x b => simp [hlist, hr.list, hs]

theorem popFront (hr : Represents h s) :
    ∃ g, h.popFront l = some g ∧ Represents g (update s l (s l).tail) := by
  cases hs : s l with
  | nil =>
    refine ⟨h, ?_, ?_⟩
    · rw [Heap.popFront, hr.list, hs]
      rfl
    · rwa [List.tail_nil, ← hs, update_eq_self]
  | cons e b =>
    obtain ⟨hnext, -⟩ := hr.links (a := []) hs
    obtain ⟨g, hg, hout, hlist⟩ := hr.unlink (a := []) (g := h.setHead l b.head?) hs rfl
    rw [Heap.popFront, hr.list, hs, List.head?_cons, Option.elim_some, hnext, hg, Option.map_some,
      hlist]
    refine ⟨_, rfl, hr.linkedOut (a := []) hs ?_ ?_⟩
    · split
      case isTrue => exact ⟨hout.next, hout.prev, hout.owner⟩
      case isFalse => exact ⟨hout.next, hout.prev, hout.owner⟩
    · cases b with
      | nil => simp [hlist, hr.list, hs]
      | cons x b => simp [hlist, hr.list, hs]

theorem popBack (hr : Represents h s) :
    ∃ g, h.popBack l = some g ∧ Represents g (update s l (s l).dropLast) := by
  rcases List.eq_nil_or_concat (s l) with hs | ⟨a, e, hs⟩
  · refine ⟨h, ?_, ?_⟩
    · rw [Heap.popBack, hr.list, hs]
      rfl
    · rw [hs, List.dropLast_nil, ← hs, update_eq_self]
      exact hr
  · rw [List.concat_eq_append] at hs
    obtain ⟨-, hprev⟩ := hr.links hs
    obtain ⟨g, hg, hout, hlist⟩ := hr.unlink (g := h.setTail l a.getLast?) hs rfl
    have hcons : a ++ [e] ≠ [] := by simp
    simp only [Heap.popBack, hr.list, hs, List.head?_eq_none_iff, hcons, if_false,
      List.getLast?_concat, Option.bind_some, hprev, hg, Option.map_some, hlist,
      List.dropLast_concat]
    rw [show update s l a = update s l (a ++ []) by rw [List.append_nil]]
    refine ⟨_, rfl, hr.linkedOut hs ?_ ?_⟩
    · split
      case isTrue => exact ⟨hout.next, hout.prev, hout.owner⟩
      case isFalse => exact ⟨hout.next, hout.prev, hout.owner⟩
    · rcases List.eq_nil_or_concat a with rfl | ⟨a, x, rfl⟩
      · simp [hlist, hr.list, hs]
      · simp [hlist, hr.list, hs]

/-- The ends of the list, before `remove` unlinks its element. -/
theorem remove_ends (hr : Represents h s) (hs : s l = a ++ e :: b) :
    ∃ h' : Heap α κ, h.remove l e = ((h'.unlink e l).map fun g =>
        g.setElems l ((g.list l).elems - 1)) ∧
      h'.node = h.node ∧
      h'.list = update h.list l ⟨(a ++ b).head?, (a ++ b).getLast?, (h.list l).elems⟩ := by
  obtain ⟨hhead, htail⟩ := hr.ends hs
  obtain ⟨hnext, hprev⟩ := hr.links hs
  refine ⟨_, rfl, by split <;> split <;> rfl, ?_⟩
  cases a with
  | nil =>
    cases b with
    | nil => simp [hhead, htail, hnext, hprev]
    | cons y b =>
      simp only [hhead, htail, List.cons_ne_nil, if_true, Heap.setHead_list, update_self, if_false]
      simp [hr.list, hs, hnext]
  | cons x a =>
    cases b with
    | nil =>
      simp only [hhead, htail, List.cons_ne_nil, if_true, if_false]
      simp [hr.list, hs, hprev]
    | cons y b =>
      have hlast : (x :: a ++ e :: y :: b).getLast? = (x :: a ++ y :: b).getLast? := by
        rw [List.getLast?_append_of_ne_nil _ (List.cons_ne_nil e _), List.getLast?_cons_cons,
          List.getLast?_append_of_ne_nil _ (List.cons_ne_nil y b)]
      simp only [hhead, htail, List.cons_ne_nil, if_false]
      rw [eq_update_self_iff, hr.list, hs, hlast]
      rfl

theorem remove (hr : Represents h s) (he : (h.node e).owner = some l) :
    ∃ g, h.remove l e = some g ∧ Represents g (update s l ((s l).erase e)) := by
  obtain ⟨a, b, hs⟩ := List.append_of_mem ((hr.owner e l).mp he)
  have ha : e ∉ a := by
    have hnodup := hr.nodup l
    rw [hs, List.nodup_middle, List.nodup_cons] at hnodup
    exact fun ha => hnodup.1 (List.mem_append_left b ha)
  obtain ⟨h', hh', hnode, hlist'⟩ := hr.remove_ends hs
  obtain ⟨g, hg, hout, hlist⟩ := hr.unlink hs hnode
  rw [hh', hg, hs, List.erase_append_right _ ha, List.erase_cons_head]
  refine ⟨_, rfl, hr.linkedOut hs ⟨hout.next, hout.prev, hout.owner⟩ ?_⟩
  simp [hlist, hlist']

/-- A call that meets its assertions about owners meets the others, and does to the list what it is
for. -/
theorem step (hr : Represents h s) {op : ListOp α κ} (hop : op.Owned h) :
    ∃ g, op.step h = some g ∧ Represents g (op.apply s) := by
  cases op with
  | pushFront l e => exact hr.pushFront hop
  | pushBack l e => exact hr.pushBack hop
  | popFront l => exact hr.popFront
  | popBack l => exact hr.popBack
  | remove l e => exact hr.remove hop
  | insertAfter l p e => exact hr.insertAfter hop.1 hop.2

theorem run (hr : Represents h s) {ops : List (ListOp α κ)}
    (hops : Along ListOp.step ListOp.Owned ops h) :
    ∃ g, Lib.run ListOp.step ops h = some g ∧
      Represents g (ops.foldl (fun s op => op.apply s) s) := by
  induction ops generalizing h s with
  | nil => exact ⟨h, rfl, hr⟩
  | cons op ops ih =>
    obtain ⟨g, hg, hr'⟩ := hr.step hops.1
    obtain ⟨g', hg', hr''⟩ := ih hr' (hops.2 g hg)
    exact ⟨g', by rw [Lib.run, hg, Option.bind_some, hg'], hr''⟩

end Represents

/-- In a run each list is the one that the calls make of it, from `head` along `next` to `tail`, and
the elements that are in no list have no links. -/
theorem lists_represented [DecidableEq α] [DecidableEq κ] (ops : List (ListOp α κ))
    (hops : Along ListOp.step ListOp.Owned ops Heap.init) :
    ∃ h s, run ListOp.step ops Heap.init = some h ∧
      s = ops.foldl (fun s op => op.apply s) (fun _ => []) ∧
      (∀ l, Follows (fun x => (h.node x).next) (h.list l).head (s l) ∧ (s l).Nodup ∧
        (∀ x, x ∈ s l ↔ (h.node x).owner = some l) ∧ (h.list l).tail = (s l).getLast? ∧
        (h.list l).elems = (s l).length ∧ ((h.list l).head = none ↔ s l = []) ∧
        ((h.list l).tail = none ↔ s l = [])) ∧
      (∀ x y, (h.node x).next = some y ↔ (h.node y).prev = some x) ∧
      ∀ x, (h.node x).owner = none → (h.node x).next = none ∧ (h.node x).prev = none := by
  obtain ⟨h, hrun, hr⟩ := init_represents.run hops
  refine ⟨h, _, hrun, rfl, fun l => ?_, hr.inverse, fun x hx => ?_⟩
  · rw [hr.list]
    exact ⟨(hr.linked l).follows, hr.nodup l, fun x => (hr.owner x l).symm, rfl, rfl,
      List.head?_eq_none_iff, List.getLast?_eq_none_iff⟩
  · obtain ⟨hnext, hprev, -⟩ := hr.free x hx
    exact ⟨hnext, hprev⟩

/-- The elements 1, 2 and 3 go to the list 0, and 2 moves to the list 1. -/
def sampleOps : List (ListOp Nat Nat) :=
  [.pushFront 0 1, .pushBack 0 3, .insertAfter 0 1 2, .remove 0 2, .pushBack 1 2, .popFront 0,
    .pushFront 0 1, .popBack 0]

theorem lists_represented_sample : ∃ h, run ListOp.step sampleOps Heap.init = some h ∧
    Follows (fun x => (h.node x).next) (h.list 0).head [1] ∧ (h.list 1).elems = 1 := by
  obtain ⟨h, s, hrun, rfl, hlists, -⟩ := lists_represented sampleOps (by decide +kernel)
  exact ⟨h, hrun, (hlists 0).1, (hlists 1).2.2.2.2.1⟩

end Doppelganger.Intrusive

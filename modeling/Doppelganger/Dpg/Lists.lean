import Doppelganger.Dpg.Array
import Doppelganger.Lib.Links
import Mathlib.Tactic.Common

/-! The tag lists of the data lines.  `Lists s L` says that the tags on data line `d` are those of
the list `L d`, doubly linked from the head that the data line names; `removeTag`, `addTag` and
`claimData` keep it, for the lists that each of them leaves. -/

namespace Doppelganger.Dpg

open Function Lib

structure Lists (s : DpgArray) (L : Nat → List Nat) : Prop where
  linked : ∀ d, Linked s.next s.prev none (L d)
  head : ∀ d, s.tagHeadId d = (L d).head?
  nodup : ∀ d, (L d).Nodup
  mem : ∀ d t, t ∈ L d ↔ s.dataId t = some d
  free : ∀ t, s.dataId t = none → s.next t = none ∧ s.prev t = none

theorem init_lists : Lists init fun _ => [] := by
  constructor <;> simp [init, Linked]

namespace Lists

variable {s s' : DpgArray} {L : Nat → List Nat} {t u d e : Nat} {map : Int32}

/-- A data line is live exactly when some tag is on it. -/
theorem head_eq_none (h : Lists s L) (d : Nat) :
    s.tagHeadId d = none ↔ ∀ t, s.dataId t ≠ some d := by
  rw [h.head, List.head?_eq_none_iff]
  constructor
  · intro hd t ht
    have := (h.mem d t).mpr ht
    simp [hd] at this
  · exact fun hd => List.eq_nil_iff_forall_not_mem.mpr fun t ht => hd t ((h.mem d t).mp ht)

theorem live (h : Lists s L) (ht : s.dataId t = some d) : (s.tagHeadId d).isSome = true := by
  rw [Option.isSome_iff_ne_none]
  exact fun hd => (h.head_eq_none d).mp hd t ht

/-- A tag is in the list of one data line only. -/
theorem disjoint (h : Lists s L) (hu : u ∈ L d) (hde : e ≠ d) : u ∉ L e := by
  intro hue
  have h1 := (h.mem d u).mp hu
  have h2 := (h.mem e u).mp hue
  rw [h1] at h2
  exact hde (Option.some.inj h2).symm

/-- `s'` is `s` with tag `t` taken out of the list of `d`, where it stands between `a` and `b`. -/
structure Removed (t d : Nat) (a b : List Nat) (s s' : DpgArray) : Prop where
  next : ∀ u, s'.next u =
    if u = t then none else if b.head? = some u then s.next t else s.next u
  prev : ∀ u, s'.prev u =
    if u = t then none else if a.getLast? = some u then s.prev t else s.prev u
  addr : ∀ u, s'.addr u = if u = t then -1 else s.addr u
  dataId : ∀ u, s'.dataId u = if u = t then none else s.dataId u
  tagHeadId : ∀ e, s'.tagHeadId e = if e = d then (a ++ b).head? else s.tagHeadId e
  mapValue : ∀ e, s'.mapValue e = s.mapValue e ∨ s'.tagHeadId e = none
  evictions : s'.evictions = s.evictions

/-- What `removeTag` does, in each of its four branches: `t` is the only tag on its data line,
the tail of the list, its head, or between two tags. -/
theorem removeTag_eq (h : Lists s L) {a b : List Nat} (hL : L d = a ++ t :: b) :
    ∃ s', removeTag t s = some s' ∧ Removed t d a b s s' := by
  have hd : s.dataId t = some d := (h.mem d t).mp (by simp [hL])
  have hhead : s.tagHeadId d = (a ++ t :: b).head? := hL ▸ h.head d
  have hab : t ∉ a ∧ t ∉ b := by
    have := hL ▸ h.nodup d
    simp [List.nodup_append] at this
    exact ⟨fun ht => (this.2.2 t ht).1 rfl, this.2.1.1⟩
  -- Unless `t` is the head of the list, the head stays.
  have hkeep : ∀ n, a.getLast? = some n → s.tagHeadId d = (a ++ b).head? := by
    intro n ha
    cases a with
    | nil => simp at ha
    | cons x a => exact hhead
  obtain ⟨hn, hp⟩ := (hL ▸ h.linked d : Linked _ _ none (a ++ t :: b)).links_mid
  rw [Option.or_none] at hn
  unfold removeTag
  rw [hn, hp]
  cases hb : b.head? with
  | none =>
    obtain rfl := List.head?_eq_none_iff.mp hb
    cases ha : a.getLast? with
    | none =>
      obtain rfl := List.getLast?_eq_none_iff.mp ha
      refine ⟨_, by rw [hd]; rfl, ?_⟩
      constructor <;> simp only [clearTag, update_apply] <;> grind
    | some n =>
      refine ⟨_, rfl, ?_⟩
      have hnt : n ≠ t := fun e => hab.1 (e ▸ List.mem_of_getLast? ha)
      constructor <;> simp only [clearTag, update_apply] <;> grind
  | some p =>
    have hpt : p ≠ t := fun e => hab.2 (e ▸ List.mem_of_mem_head? hb)
    cases ha : a.getLast? with
    | none =>
      obtain rfl := List.getLast?_eq_none_iff.mp ha
      refine ⟨_, by rw [hd]; rfl, ?_⟩
      constructor <;> simp only [clearTag, update_apply] <;> grind
    | some n =>
      have hnt : n ≠ t := fun e => hab.1 (e ▸ List.mem_of_getLast? ha)
      refine ⟨_, rfl, ?_⟩
      constructor <;> simp only [clearTag, update_apply] <;> grind

/-- Unlinking keeps the lists of the other data lines and leaves `a ++ b` on `d`. -/
theorem removed (h : Lists s L) {a b : List Nat} (hL : L d = a ++ t :: b)
    (hr : Removed t d a b s s') : Lists s' (update L d (a ++ b)) := by
  have hnodup : (a ++ t :: b).Nodup := hL ▸ h.nodup d
  have htd : t ∈ L d := by simp [hL]
  have htab : t ∉ a ++ b := by
    simp only [List.nodup_append, List.nodup_cons, List.mem_append] at hnodup ⊢
    rintro (ha | hb)
    · exact hnodup.2.2 t ha t (by simp) rfl
    · exact hnodup.2.1.1 hb
  have hsub : ∀ u ∈ a ++ b, u ∈ L d := by
    intro u hu
    rw [hL]
    simp only [List.mem_append, List.mem_cons] at hu ⊢
    tauto
  have hbL : ∀ u, b.head? = some u → u ∈ L d := fun u hu =>
    hsub u (List.mem_append_right _ (List.mem_of_mem_head? hu))
  have haL : ∀ u, a.getLast? = some u → u ∈ L d := fun u hu =>
    hsub u (List.mem_append_left _ (List.mem_of_getLast? hu))
  have hne : ∀ u ∈ a ++ b, u ≠ t := fun u hu e => htab (e ▸ hu)
  constructor
  · intro e
    by_cases hed : e = d
    · subst hed
      rw [update_self]
      refine (hL ▸ h.linked e : Linked _ _ none (a ++ t :: b)).unlink hnodup ?_ ?_ ?_ ?_
      · intro y hy
        rw [hr.next, if_neg (hne y (List.mem_append_right _ (List.mem_of_mem_head? hy))), if_pos hy]
      · intro x hx
        rw [hr.prev, if_neg (hne x (List.mem_append_left _ (List.mem_of_getLast? hx))), if_pos hx]
      · exact fun y hy hb => by rw [hr.next, if_neg (hne y hy), if_neg hb]
      · exact fun x hx ha => by rw [hr.prev, if_neg (hne x hx), if_neg ha]
    · rw [update_of_ne hed]
      have hother : ∀ u ∈ L d, ∀ x ∈ L e, x ≠ u := fun u hu x hx he =>
        h.disjoint hu hed (he ▸ hx)
      refine (h.linked e).congr (fun x hx => ?_) (fun x hx => ?_)
      · rw [hr.next, if_neg (hother t htd x hx), if_neg fun hb => hother x (hbL x hb) x hx rfl]
      · rw [hr.prev, if_neg (hother t htd x hx), if_neg fun ha => hother x (haL x ha) x hx rfl]
  · intro e
    rw [hr.tagHeadId]
    by_cases hed : e = d
    · rw [if_pos hed, hed, update_self]
    · rw [if_neg hed, update_of_ne hed, h.head]
  · intro e
    by_cases hed : e = d
    · rw [hed, update_self]
      exact hnodup.sublist (List.Sublist.append_left (List.sublist_cons_self t b) a)
    · rw [update_of_ne hed]
      exact h.nodup e
  · intro e u
    rw [hr.dataId]
    by_cases hut : u = t
    · subst hut
      by_cases hed : e = d
      · simpa [hed] using htab
      · simpa [update_of_ne hed] using h.disjoint htd hed
    · rw [if_neg hut, ← h.mem]
      by_cases hed : e = d
      · subst hed
        rw [update_self, hL]
        simp [hut]
      · rw [update_of_ne hed]
  · intro u hu
    rw [hr.dataId] at hu
    rw [hr.next, hr.prev]
    by_cases hut : u = t
    · simp [hut]
    · rw [if_neg hut] at hu
      have hnot : u ∉ L d := fun hm => by rw [(h.mem d u).mp hm] at hu; simp at hu
      rw [if_neg hut, if_neg hut, if_neg fun hb => hnot (hbL u hb),
        if_neg fun ha => hnot (haL u ha)]
      exact h.free u hu

/-- `removeTag` takes the tag out of the list of its data line. -/
theorem removeTag (h : Lists s L) (ht : s.dataId t = some d) :
    ∃ s' a b, Dpg.removeTag t s = some s' ∧ L d = a ++ t :: b ∧ Removed t d a b s s' ∧
      Lists s' (update L d (a ++ b)) := by
  obtain ⟨a, b, hL⟩ := List.append_of_mem ((h.mem d t).mpr ht)
  obtain ⟨s', hs', hr⟩ := h.removeTag_eq hL
  exact ⟨s', a, b, hs', hL, hr, h.removed hL hr⟩

/-- `addTag` puts a tag that is in no list in front of the list of `d`. -/
theorem addTag (h : Lists s L) (ht : s.dataId t = none) :
    Lists (Dpg.addTag t d s) (update L d (t :: L d)) := by
  obtain ⟨hnt, hpt⟩ := h.free t ht
  have hnot : ∀ e, t ∉ L e := fun e hm => by rw [(h.mem e t).mp hm] at ht; simp at ht
  have hnext : ∀ u, (Dpg.addTag t d s).next u =
      if (L d).head? = some u then some t else s.next u := by
    intro u
    cases hh : s.tagHeadId d <;> simp [Dpg.addTag, hh, ← h.head d, update_apply, eq_comm]
  have hprev : ∀ u, (Dpg.addTag t d s).prev u = if u = t then (L d).head? else s.prev u := by
    intro u
    cases hh : s.tagHeadId d <;> simp [Dpg.addTag, hh, ← h.head d, update_apply]
    exact fun e => e ▸ hpt
  have hid : (Dpg.addTag t d s).dataId = update s.dataId t (some d) := by
    cases hh : s.tagHeadId d <;> simp [Dpg.addTag, hh]
  have hhead : (Dpg.addTag t d s).tagHeadId = update s.tagHeadId d (some t) := by
    cases hh : s.tagHeadId d <;> simp [Dpg.addTag, hh]
  have hheadL : ∀ e u, (L e).head? = some u → u ∈ L e := fun e u hu => List.mem_of_mem_head? hu
  constructor
  · intro e
    by_cases hed : e = d
    · subst hed
      rw [update_self]
      refine (h.linked e).push (h.nodup e) ?_ ?_ ?_ ?_ ?_
      · rw [hnext, if_neg fun hu => hnot e (hheadL e t hu)]
        exact hnt
      · rw [hprev, if_pos rfl]
      · exact fun y hy => by rw [hnext, if_pos hy]
      · exact fun y hy hh => by rw [hnext, if_neg hh]
      · exact fun y hy => by rw [hprev, if_neg (fun he : y = t => hnot e (he ▸ hy))]
    · rw [update_of_ne hed]
      refine (h.linked e).congr (fun x hx => ?_) (fun x hx => ?_)
      · rw [hnext, if_neg fun hu => h.disjoint (hheadL d x hu) hed hx]
      · rw [hprev, if_neg (fun he : x = t => hnot e (he ▸ hx))]
  · intro e
    by_cases hed : e = d
    · simp [hed, hhead]
    · rw [hhead, update_of_ne hed, update_of_ne hed, h.head]
  · intro e
    by_cases hed : e = d
    · rw [hed, update_self]
      exact List.nodup_cons.mpr ⟨hnot d, h.nodup d⟩
    · rw [update_of_ne hed]
      exact h.nodup e
  · intro e u
    rw [hid]
    by_cases hut : u = t
    · subst hut
      by_cases hed : e = d
      · simp [hed]
      · simp [update_of_ne hed, hnot e, Ne.symm hed]
    · rw [update_of_ne hut, ← h.mem]
      by_cases hed : e = d
      · simp [hed, hut]
      · rw [update_of_ne hed]
  · intro u hu
    rw [hid] at hu
    by_cases hut : u = t
    · simp [hut] at hu
    · rw [update_of_ne hut] at hu
      have hnu : u ∉ L d := fun hm => by rw [(h.mem d u).mp hm] at hu; simp at hu
      rw [hnext, hprev, if_neg fun hh => hnu (hheadL d u hh), if_neg hut]
      exact h.free u hu

/-- `claimData` puts a tag that is in no list alone on a data line that is not live. -/
theorem claimData (h : Lists s L) (ht : s.dataId t = none) (hd : s.tagHeadId d = none) :
    Lists (Dpg.claimData t d map s) (update L d [t]) := by
  have hLd : L d = [] := List.head?_eq_none_iff.mp ((h.head d).symm.trans hd)
  have hadd : Lists (Dpg.addTag t d s) (update L d (t :: L d)) := h.addTag ht
  rw [hLd] at hadd
  have hkeep : Dpg.claimData t d map s =
      { Dpg.addTag t d s with mapValue := update s.mapValue d map } := by
    simp [Dpg.claimData, Dpg.addTag, hd]
  rw [hkeep]
  exact ⟨hadd.linked, hadd.head, hadd.nodup, hadd.mem, hadd.free⟩

end Lists

end Doppelganger.Dpg

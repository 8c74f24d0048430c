import Doppelganger.Weave.Slots
import Mathlib.Data.List.Nodup
import Mathlib.Data.List.Perm.Basic

/-! What a priority queue holds: the pending objects with their cycles, those in the window in the
lists of the blocks, and the others in the map.  The map holds only elements that the window has not
reached at the last boundary of `B / 2` blocks. -/

namespace Doppelganger.Weave

open Function Lib

/-- `pending` is what the queue holds; the elements of the map are from block `least` on. -/
structure Holds {ι : Type*} (B : Nat) (q : PrioQueue ι) (slot : Nat → List ι) (least : Nat)
    (pending : List (Nat × ι)) : Prop where
  slots : Slots B q slot
  objects : (pending.map Prod.snd).Nodup
  mem : ∀ c x, (c, x) ∈ pending ↔ x ∈ slot c ∨ (c, x) ∈ q.feMap
  far : ∀ e ∈ q.feMap, least ≤ e.1 / 64 ∧ e.1 / 64 + B / 2 < 2 ^ 58 ∧ ∀ c, e.2 ∉ slot c
  feNodup : (q.feMap.map Prod.snd).Nodup
  sorted : q.feMap.Pairwise fun a b => a.1 ≤ b.1
  elems : q.elems = pending.length

/-- The block from which on the elements of the map are. -/
def PrioQueue.boundary {ι : Type*} (B : Nat) (q : PrioQueue ι) : Nat :=
  q.curBlock / (B / 2) * (B / 2) + B

section

variable {ι : Type*} {B least : Nat} {q q' : PrioQueue ι} {slot : Nat → List ι}
  {pending : List (Nat × ι)} {x y : ι} {c d : Nat}

theorem boundary_gt (hB : 2 ≤ B) (q : PrioQueue ι) : q.curBlock + B / 2 < q.boundary B := by
  have hdiv := Nat.div_add_mod q.curBlock (B / 2)
  have hmod := Nat.mod_lt q.curBlock (show 0 < B / 2 by omega)
  rw [PrioQueue.boundary, Nat.mul_comm]
  omega

/-- At a multiple of `B / 2` the boundary is the end of the window. -/
theorem boundary_refill {cur h : Nat} (hmod : (cur + 1) % h = 0) :
    (cur + 1) / h * h = cur + 1 ∧ cur / h * h + h = cur + 1 := by
  have hend : (cur + 1) / h * h = cur + 1 := Nat.div_mul_cancel (Nat.dvd_of_mod_eq_zero hmod)
  refine ⟨hend, ?_⟩
  rwa [Nat.succ_div_of_mod_eq_zero hmod, Nat.add_mul, Nat.one_mul] at hend

/-- The lists with one more object. -/
theorem mem_pushed : y ∈ update slot c (x :: slot c) d ↔ y ∈ slot d ∨ d = c ∧ y = x := by
  by_cases hd : d = c
  · subst hd
    simp [or_comm]
  · simp [hd]

/-- An element of least cycle. -/
def Earliest (pending : List (Nat × ι)) (e : Nat × ι) : Prop :=
  e ∈ pending ∧ ∀ e' ∈ pending, e.1 ≤ e'.1

theorem exists_earliest : ∀ {pending : List (Nat × ι)}, pending ≠ [] → ∃ e, Earliest pending e
  | [e], _ => ⟨e, by simp [Earliest]⟩
  | e :: e' :: pending, _ => by
    obtain ⟨first, hmem, hfirst⟩ := @exists_earliest (e' :: pending) (by simp)
    by_cases hle : e.1 ≤ first.1
    · refine ⟨e, by simp, fun d hd => ?_⟩
      rcases List.mem_cons.mp hd with rfl | hd
      · exact Nat.le_refl _
      · exact Nat.le_trans hle (hfirst d hd)
    · refine ⟨first, List.mem_cons_of_mem _ hmem, fun d hd => ?_⟩
      rcases List.mem_cons.mp hd with rfl | hd
      · omega
      · exact hfirst d hd

/-- An element is in the current block or later, and in the lists when it is in the window's first
half. -/
theorem Holds.block_le (h : Holds B q slot (q.boundary B) pending) (hB : 2 ≤ B)
    (hc : (c, x) ∈ pending) : q.curBlock ≤ c / 64 ∧
      (c / 64 ≤ q.curBlock + B / 2 → x ∈ slot c) := by
  have hgt := boundary_gt hB q
  rcases (h.mem c x).mp hc with hx | hfar
  · exact ⟨(h.slots.near c (List.ne_nil_of_mem hx)).1, fun _ => hx⟩
  · have hlo := (h.far _ hfar).1
    simp only at hlo
    exact ⟨by omega, fun hle => by omega⟩

/-- A cycle with objects is at least the least one. -/
theorem Holds.slot_ge (h : Holds B q slot least pending) {e : Nat × ι} (he : Earliest pending e)
    (hd : slot d ≠ []) : e.1 ≤ d := by
  obtain ⟨y, hy⟩ := List.exists_mem_of_ne_nil _ hd
  exact he.2 _ ((h.mem d y).mpr (.inl hy))

/-- The first element of the map comes after the least one, or has its cycle. -/
theorem Holds.head_ge (h : Holds B q slot least pending) {e : Nat × ι} (he : Earliest pending e)
    {rest : List (Nat × ι)} (hfe : q.feMap = (c, y) :: rest) :
    e.1 ≤ c ∧ (e ∈ q.feMap → c = e.1) := by
  have hfar : e.1 ≤ c := he.2 (c, y) ((h.mem c y).mpr (.inr (by simp [hfe])))
  refine ⟨hfar, fun hx => ?_⟩
  have hsorted := h.sorted
  rw [hfe] at hsorted hx
  rcases List.mem_cons.mp hx with rfl | hx
  · rfl
  · exact Nat.le_antisymm ((List.pairwise_cons.mp hsorted).1 _ hx) hfar

/-- `firstCycle` is the least cycle of the pending elements. -/
theorem Holds.firstCycle (h : Holds B q slot (q.boundary B) pending) (hB : 2 ≤ B)
    {e : Nat × ι} (he : Earliest pending e) : q.firstCycle B = some e.1 := by
  obtain ⟨c, x⟩ := e
  have helems : q.elems ≠ 0 := by
    rw [h.elems]
    exact fun hz => List.ne_nil_of_mem he.1 (List.length_eq_zero_iff.mp hz)
  have hgt := boundary_gt hB q
  obtain ⟨hsome1, hnone1⟩ := h.slots.firstOccupied (i := 0) (n := B / 2) (by omega)
  obtain ⟨hsome2, hnone2⟩ := h.slots.firstOccupied (i := B / 2) (n := B - B / 2) (by omega)
  have hle := (h.block_le hB he.1).1
  rw [PrioQueue.firstCycle, if_neg helems]
  cases h1 : q.firstOccupied B 0 (B / 2) with
  | some c1 =>
    obtain ⟨hslot, hlt, hbefore⟩ := hsome1 c1 h1
    have hc := h.slot_ge he hslot
    by_contra hne
    have hne : c1 ≠ c := fun heq => hne (by rw [heq])
    have hx := (h.block_le hB he.1).2 (by omega)
    rw [hbefore c (by omega) (by omega)] at hx
    simp at hx
  | none =>
    -- Nothing is in the first half of the window.
    have hhalf : x ∈ slot c → q.curBlock + B / 2 ≤ c / 64 := by
      intro hx
      by_contra hlt
      rw [hnone1 h1 c (by omega) (by omega)] at hx
      simp at hx
    cases h2 : q.firstOccupied B (B / 2) (B - B / 2) with
    | some c2 =>
      obtain ⟨hslot, -, hbefore⟩ := hsome2 c2 h2
      have hc := h.slot_ge he hslot
      have hx2 : x ∈ slot c → c2 = c := by
        intro hx
        by_contra hne
        have hempty := hbefore c (hhalf hx) (by omega)
        rw [hempty] at hx
        simp at hx
      cases hfe : q.feMap with
      | nil =>
        have hx : x ∈ slot c := by simpa [hfe] using (h.mem c x).mp he.1
        simp [hx2 hx]
      | cons f rest =>
        obtain ⟨far, y⟩ := f
        obtain ⟨hfar, hself⟩ := h.head_ge he hfe
        simp only [Option.some.injEq]
        rcases (h.mem c x).mp he.1 with hx | hx
        · rw [hx2 hx]
          exact Nat.min_eq_left hfar
        · rw [hself hx]
          exact Nat.min_eq_right hc
    | none =>
      have hx : (c, x) ∈ q.feMap := by
        refine ((h.mem c x).mp he.1).resolve_left fun hx => ?_
        have hnear := h.slots.near c (List.ne_nil_of_mem hx)
        rw [hnone2 h2 c (hhalf hx) (by have := hnear.2; omega)] at hx
        simp at hx
      cases hfe : q.feMap with
      | nil => simp [hfe] at hx
      | cons f rest =>
        obtain ⟨far, y⟩ := f
        simp [(h.head_ge he hfe).2 hx]

/-! ### Calls -/

variable [DecidableEq ι]

/-- The elements of the map that the window reaches move to the blocks. -/
theorem Holds.refill : ∀ {far : List (Nat × ι)} {q : PrioQueue ι} {slot : Nat → List ι},
    Holds B { q with feMap := far } slot least pending → q.curBlock ≤ least →
    ∃ q' slot', q.refill B ((q.curBlock + B) * 64) far = some q' ∧
      Holds B q' slot' (q.curBlock + B) pending ∧ q'.curBlock = q.curBlock
  | [], q, slot, h, _ =>
    ⟨_, slot, rfl, ⟨h.slots, h.objects, h.mem, by simp, h.feNodup, h.sorted, h.elems⟩, rfl⟩
  | (c, x) :: far, q, slot, h, hleast => by
    obtain ⟨hlo, hhi, hout⟩ := h.far (c, x) (by simp)
    obtain ⟨hfirst, hsorted⟩ := List.pairwise_cons.mp h.sorted
    obtain ⟨hx, hnodup⟩ := List.nodup_cons.mp h.feNodup
    by_cases hc : c < (q.curBlock + B) * 64
    · have hnear : q.Near B c := by
        simp only [PrioQueue.Near]
        simp only at hlo
        omega
      obtain ⟨q1, hplace, hslots, hcur, hfe, helems⟩ :=
        (h.slots.congr rfl rfl rfl : Slots B q slot).place hnear hout
      have hmoved : Holds B { q1 with feMap := far } (update slot c (x :: slot c)) least
          pending := by
        refine ⟨hslots.congr rfl rfl rfl, h.objects, fun d y => ?_, fun e he => ?_, hnodup,
          hsorted, helems.trans h.elems⟩
        · rw [h.mem, mem_pushed, List.mem_cons, Prod.mk.injEq, or_assoc]
        · obtain ⟨hlo, hhi, hout⟩ := h.far e (by simp [he])
          refine ⟨hlo, hhi, fun d hd => ?_⟩
          rcases mem_pushed.mp hd with hd | ⟨-, hd⟩
          · exact hout d hd
          · exact hx (List.mem_map.mpr ⟨e, he, hd⟩)
      obtain ⟨q2, slot2, hrefill, hholds, hcur2⟩ := hmoved.refill (by rw [hcur]; exact hleast)
      rw [hcur] at hrefill hholds hcur2
      refine ⟨q2, slot2, ?_, hholds, hcur2⟩
      rw [PrioQueue.refill, if_pos hc,
        if_pos (show q.curBlock ≤ c / 64 ∧ c / 64 < q.curBlock + B from hnear), hplace]
      exact hrefill
    · refine ⟨{ q with feMap := (c, x) :: far }, slot, by rw [PrioQueue.refill, if_neg hc],
        ⟨h.slots, h.objects, h.mem, fun e he => ?_, h.feNodup, h.sorted, h.elems⟩, rfl⟩
      obtain ⟨-, hhi, hout⟩ := h.far e he
      refine ⟨?_, hhi, hout⟩
      rcases List.mem_cons.mp he with rfl | he
      · simp only
        omega
      · have hle := hfirst e he
        simp only at hle
        omega

/-- The window moves past an empty block. -/
theorem Holds.nextBlock (h : Holds B q slot (q.boundary B) pending) (hB : 2 ≤ B)
    (hocc : (q.blocks (q.curBlock % B)).occ = 0) (hcur : q.curBlock + 1 < 2 ^ 64) :
    ∃ q' slot', q.nextBlock B = some q' ∧ Holds B q' slot' (q'.boundary B) pending ∧
      q'.curBlock = q.curBlock + 1 := by
  have hmoved : Holds B { q with curBlock := q.curBlock + 1 } slot (q.boundary B) pending :=
    ⟨h.slots.advance (by omega) hocc, h.objects, h.mem, h.far, h.feNodup, h.sorted, h.elems⟩
  have hdiv := Nat.div_add_mod (q.curBlock + 1) (B / 2)
  have hgt := boundary_gt hB q
  rw [PrioQueue.nextBlock, Nat.mod_eq_of_lt hcur]
  by_cases hrefill : (q.curBlock + 1) % (B / 2) = 0 ∧ q.feMap.isEmpty = false
  · -- The map has no element whose block the word of `topCycle` cannot hold.
    obtain ⟨e, he⟩ : ∃ e, e ∈ q.feMap := by
      have hne := hrefill.2
      cases hfe : q.feMap with
      | nil => simp [hfe] at hne
      | cons e l => exact ⟨e, by simp⟩
    obtain ⟨hlo, hhi, -⟩ := h.far e he
    obtain ⟨hend, hstart⟩ := boundary_refill hrefill.1
    have hleast : q.boundary B + B / 2 = q.curBlock + 1 + B := by
      rw [PrioQueue.boundary]
      omega
    have htop : (q.curBlock + 1 + B) * 64 % 2 ^ 64 = (q.curBlock + 1 + B) * 64 :=
      Nat.mod_eq_of_lt (by omega)
    obtain ⟨q', slot', hq', hholds, hcur'⟩ :=
      Holds.refill (q := { q with curBlock := q.curBlock + 1 }) hmoved (by simp only; omega)
    refine ⟨q', slot', ?_, ?_, hcur'⟩
    · simp only [hrefill, and_self, if_true, htop]
      exact hq'
    · rw [PrioQueue.boundary, hcur']
      simp only
      rw [hend]
      exact hholds
  · refine ⟨_, slot, if_neg hrefill, ⟨hmoved.slots, h.objects, h.mem, fun e he => ?_, h.feNodup,
      h.sorted, h.elems⟩, rfl⟩
    obtain ⟨hlo, hhi, hout⟩ := h.far e he
    refine ⟨?_, hhi, hout⟩
    have hmod : (q.curBlock + 1) % (B / 2) ≠ 0 := by
      intro hmod
      refine hrefill ⟨hmod, ?_⟩
      cases hfe : q.feMap with
      | nil => simp [hfe] at he
      | cons e l => rfl
    rw [PrioQueue.boundary]
    simp only
    rw [Nat.succ_div_of_mod_ne_zero hmod]
    exact hlo

/-- The loop of `dequeue` ends at the block of an earliest element. -/
theorem Holds.findBlock (hB : 2 ≤ B) (hfirst : Earliest pending (c, x)) (hc : c < 2 ^ 64) :
    ∀ {fuel : Nat} {q : PrioQueue ι} {slot : Nat → List ι},
    Holds B q slot (q.boundary B) pending → c / 64 - q.curBlock < fuel →
    ∃ q' slot', q.findBlock B fuel = some q' ∧ Holds B q' slot' (q'.boundary B) pending ∧
      q'.curBlock = c / 64 ∧ (q'.blocks (q'.curBlock % B)).occ ≠ 0
  | 0, q, slot, _, hfuel => by omega
  | fuel + 1, q, slot, h, hfuel => by
    obtain ⟨hle, hnear⟩ := h.block_le hB hfirst.1
    rw [PrioQueue.findBlock]
    by_cases hocc : (q.blocks (q.curBlock % B)).occ = 0
    · have hne : c / 64 ≠ q.curBlock := by
        intro heq
        have hempty := h.slots.block_empty ⟨Nat.le_refl _, by omega⟩ hocc heq
        have hx := hnear (by omega)
        rw [hempty] at hx
        simp at hx
      obtain ⟨q1, slot1, h1, hholds, hcur⟩ := h.nextBlock hB hocc (by omega)
      obtain ⟨q2, slot2, h2, hres⟩ := Holds.findBlock hB hfirst hc hholds (show _ < fuel by omega)
      exact ⟨q2, slot2, by rw [if_pos hocc, h1]; exact h2, hres⟩
    · obtain ⟨hdiv, -, hslot, -⟩ := h.slots.block_first ⟨Nat.le_refl _, by omega⟩ hocc rfl
      have hlate := h.slot_ge hfirst hslot
      exact ⟨q, slot, if_neg hocc, h, by omega, hocc⟩

omit [DecidableEq ι] in
/-- The lists without the first object of a cycle. -/
theorem Slots.mem_taken (h : Slots B q slot) {l : List ι} (hslot : slot c = x :: l) :
    y ∈ update slot c l d ↔ y ∈ slot d ∧ (d, y) ≠ (c, x) := by
  have hxl : x ∉ l := (List.nodup_cons.mp (hslot ▸ h.nodup c)).1
  by_cases hd : d = c
  · subst hd
    rw [update_self, hslot, List.mem_cons]
    constructor
    · exact fun hy => ⟨.inr hy, fun hyx => hxl (by simpa using (Prod.mk.inj hyx).2 ▸ hy)⟩
    · rintro ⟨rfl | hy, hyx⟩
      · exact absurd rfl hyx
      · exact hy
  · simp [hd]

/-- The first object of a cycle leaves the lists. -/
theorem Holds.taken (h : Holds B q slot least pending) {l : List ι} (hslot : slot c = x :: l)
    {b : PQBlock ι} {next : ι → Option ι}
    (hslots : Slots B { q with blocks := update q.blocks (q.curBlock % B) b, next := next }
      (update slot c l)) :
    Holds B { q with
      blocks := update q.blocks (q.curBlock % B) b
      next := next
      elems := q.elems - 1 } (update slot c l) least (pending.erase (c, x)) := by
  have hmem : (c, x) ∈ pending := (h.mem c x).mpr (.inl (by simp [hslot]))
  refine ⟨hslots.congr rfl rfl rfl, h.objects.sublist (List.erase_sublist.map _), fun d y => ?_,
    fun e he => ?_, h.feNodup, h.sorted, ?_⟩
  · rw [h.objects.of_map.mem_erase_iff, h.mem, h.slots.mem_taken hslot]
    have hfar : (d, y) ∈ q.feMap → (d, y) ≠ (c, x) := by
      rintro hd heq
      rw [heq] at hd
      exact (h.far _ hd).2.2 c (by simp [hslot])
    constructor
    · rintro ⟨hne, hy | hd⟩
      · exact .inl ⟨hy, hne⟩
      · exact .inr hd
    · rintro (⟨hy, hne⟩ | hd)
      · exact ⟨hne, .inl hy⟩
      · exact ⟨hfar hd, .inr hd⟩
  · obtain ⟨hlo, hhi, hout⟩ := h.far e he
    exact ⟨hlo, hhi, fun d hd => hout d ((h.slots.mem_taken hslot).mp hd).1⟩
  · rw [List.length_erase_of_mem hmem, ← h.elems]

/-- `dequeue` returns an element of least cycle, and the queue holds the others. -/
theorem Holds.dequeue (h : Holds B q slot (q.boundary B) pending) (hB : 2 ≤ B)
    (hne : pending ≠ []) (hcycles : ∀ e ∈ pending, e.1 < 2 ^ 64) {fuel : Nat}
    (hfuel : 2 ^ 58 ≤ fuel) : ∃ x c q' slot', q.dequeue B fuel = some (x, c, q') ∧
      Earliest pending (c, x) ∧ q'.curBlock = c / 64 ∧
      Holds B q' slot' (q'.boundary B) (pending.erase (c, x)) := by
  obtain ⟨⟨c0, x0⟩, hfirst⟩ := exists_earliest hne
  have hc0 : c0 < 2 ^ 64 := hcycles _ hfirst.1
  obtain ⟨q1, slot1, h1, hholds, hcur, hocc⟩ := h.findBlock hB hfirst hc0 (show _ < fuel by omega)
  obtain ⟨x, l, b, next, hslot, hbefore, hdeq, hslots⟩ :=
    hholds.slots.take (by omega) hocc rfl
  obtain ⟨hdiv, hmod, -, -⟩ := hholds.slots.block_first ⟨Nat.le_refl _, by omega⟩ hocc rfl
  generalize hc : q1.curBlock * 64 + (q1.blocks (q1.curBlock % B)).occ.ctz.toNat = c at *
  have hmem : (c, x) ∈ pending := (hholds.mem c x).mpr (.inl (by simp [hslot]))
  have hleast : Earliest pending (c, x) := by
    refine ⟨hmem, fun ⟨d, y⟩ hd => ?_⟩
    obtain ⟨hle, hnear⟩ := hholds.block_le hB hd
    by_cases hblock : d / 64 ≤ q1.curBlock + B / 2
    · by_contra hlt
      have hy := hnear hblock
      rw [hbefore d (by simp only at hlt; omega)] at hy
      simp at hy
    · simp only
      omega
  have helems : q.elems ≠ 0 := by
    rw [h.elems]
    exact fun hz => hne (List.length_eq_zero_iff.mp hz)
  refine ⟨x, c, { q1 with
    blocks := update q1.blocks (q1.curBlock % B) b
    next := next
    elems := q1.elems - 1 }, update slot1 c l, ?_, hleast, hdiv.symm, hholds.taken hslot hslots⟩
  have hcycle : q1.curBlock * 64 + c % 64 = c := by omega
  rw [PrioQueue.dequeue, if_neg helems, h1, Option.bind_some, hdeq, Option.map_some]
  simp only [hcycle]

omit [DecidableEq ι] in
theorem feInsert_perm (c : Nat) (x : ι) (l : List (Nat × ι)) :
    (feInsert c x l).Perm ((c, x) :: l) := by
  have hsplit : l.takeWhile (fun e => e.1 ≤ c) ++ l.dropWhile (fun e => e.1 ≤ c) = l :=
    List.takeWhile_append_dropWhile
  have hperm := @List.perm_middle _ (c, x) (l.takeWhile fun e => e.1 ≤ c)
    (l.dropWhile fun e => e.1 ≤ c)
  rwa [hsplit] at hperm

omit [DecidableEq ι] in
theorem feInsert_sorted (c : Nat) (x : ι) : ∀ {l : List (Nat × ι)},
    l.Pairwise (fun a b => a.1 ≤ b.1) → (feInsert c x l).Pairwise fun a b => a.1 ≤ b.1
  | [], _ => by simp [feInsert]
  | a :: l, h => by
    obtain ⟨hfirst, hrest⟩ := List.pairwise_cons.mp h
    by_cases ha : a.1 ≤ c
    · have hcons : feInsert c x (a :: l) = a :: feInsert c x l := by simp [feInsert, ha]
      rw [hcons]
      refine List.pairwise_cons.mpr ⟨fun e he => ?_, feInsert_sorted c x hrest⟩
      rcases List.mem_cons.mp ((feInsert_perm c x l).mem_iff.mp he) with rfl | he
      · exact ha
      · exact hfirst e he
    · have hcons : feInsert c x (a :: l) = (c, x) :: a :: l := by simp [feInsert, ha]
      rw [hcons]
      refine List.pairwise_cons.mpr ⟨fun e he => ?_, h⟩
      rcases List.mem_cons.mp he with rfl | he
      · exact Nat.le_of_lt (Nat.lt_of_not_le ha)
      · exact Nat.le_trans (Nat.le_of_lt (Nat.lt_of_not_le ha)) (hfirst e he)

/-- `enqueue` adds an object that is not pending, in a cycle for which the window will be moved. -/
theorem Holds.enqueue (h : Holds B q slot (q.boundary B) pending)
    (hc : q.curBlock ≤ c / 64) (hx : x ∉ pending.map Prod.snd)
    (hfar : c / 64 < q.curBlock + B ∨ c / 64 + B / 2 < 2 ^ 58) : ∃ q' slot',
    q.enqueue B x c = some q' ∧ Holds B q' slot' (q'.boundary B) ((c, x) :: pending) ∧
      q'.curBlock = q.curBlock := by
  have hnew : ∀ d, (d, x) ∉ pending := fun d hd => hx (List.mem_map.mpr ⟨_, hd, rfl⟩)
  have hout : ∀ d, x ∉ slot d := fun d hd => hnew d ((h.mem d x).mpr (.inl hd))
  have hobjects : (((c, x) :: pending).map Prod.snd).Nodup := List.nodup_cons.mpr ⟨hx, h.objects⟩
  rw [PrioQueue.enqueue, if_pos hc]
  by_cases hnear : c / 64 < q.curBlock + B
  · obtain ⟨q1, hplace, hslots, hcur, hfe, helems⟩ := h.slots.place ⟨hc, hnear⟩ hout
    refine ⟨{ q1 with elems := q1.elems + 1 }, update slot c (x :: slot c), by simp [hnear, hplace],
      ⟨hslots.congr rfl rfl rfl, hobjects, fun d y => ?_, fun e he => ?_, ?_, ?_, ?_⟩, hcur⟩
    · rw [List.mem_cons, h.mem, mem_pushed, Prod.mk.injEq, hfe]
      tauto
    · have he : e ∈ q.feMap := hfe ▸ he
      obtain ⟨hlo, hhi, hslot⟩ := h.far e he
      refine ⟨by simpa [PrioQueue.boundary, hcur] using hlo, hhi, fun d hd => ?_⟩
      rcases mem_pushed.mp hd with hd | ⟨-, hd⟩
      · exact hslot d hd
      · refine hnew e.1 ((h.mem e.1 x).mpr (.inr ?_))
        rw [← hd]
        exact he
    · simpa [hfe] using h.feNodup
    · simpa [hfe] using h.sorted
    · simpa [helems] using h.elems
  · have hperm := feInsert_perm c x q.feMap
    refine ⟨{ q with feMap := feInsert c x q.feMap, elems := q.elems + 1 }, slot, by simp [hnear],
      ⟨h.slots.congr rfl rfl rfl, hobjects, fun d y => ?_, fun e he => ?_, ?_,
        feInsert_sorted c x h.sorted, by simpa using h.elems⟩, rfl⟩
    · rw [List.mem_cons, h.mem, hperm.mem_iff, List.mem_cons]
      tauto
    · rcases List.mem_cons.mp (hperm.mem_iff.mp he) with rfl | he
      · refine ⟨?_, hfar.resolve_left hnear, hout⟩
        have hstart := Nat.div_mul_le_self q.curBlock (B / 2)
        simp only [PrioQueue.boundary]
        omega
      · exact h.far e he
    · refine (hperm.map Prod.snd).nodup_iff.mpr (List.nodup_cons.mpr ⟨fun hmem => ?_, h.feNodup⟩)
      obtain ⟨e, he, hex⟩ := List.mem_map.mp hmem
      refine hnew e.1 ((h.mem e.1 x).mpr (.inr ?_))
      have heq : e = (e.1, x) := Prod.ext rfl hex
      rwa [← heq]

end

end Doppelganger.Weave

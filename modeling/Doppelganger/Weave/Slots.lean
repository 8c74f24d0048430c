import Doppelganger.Weave.PrioQueue

/-! The blocks of the priority queue as lists of objects: the objects of a cycle in the window are
those that the list in its block links, and its bit is set when there are any. -/

namespace Doppelganger.Weave

open Function Lib

/-- The cycle is in the window. -/
def PrioQueue.Near {ι : Type*} (B : Nat) (q : PrioQueue ι) (cycle : Nat) : Prop :=
  q.curBlock ≤ cycle / 64 ∧ cycle / 64 < q.curBlock + B

/-- `slot` lists the objects of each cycle in the window. -/
structure Slots {ι : Type*} (B : Nat) (q : PrioQueue ι) (slot : Nat → List ι) : Prop where
  near : ∀ c, slot c ≠ [] → q.Near B c
  lists : ∀ c, q.Near B c → Follows q.next ((q.blocks (c / 64 % B)).array (c % 64)) (slot c)
  occ : ∀ c, q.Near B c → ((q.blocks (c / 64 % B)).occ.getLsbD (c % 64) = true ↔ slot c ≠ [])
  nodup : ∀ c, (slot c).Nodup
  once : ∀ c c' x, x ∈ slot c → x ∈ slot c' → c = c'
  free : ∀ x, (∀ c, x ∉ slot c) → q.next x = none

/-- The map and the counter play no part. -/
theorem Slots.congr {ι : Type*} {B : Nat} {q q' : PrioQueue ι} {slot : Nat → List ι}
    (h : Slots B q slot) (hblocks : q'.blocks = q.blocks) (hnext : q'.next = q.next)
    (hcur : q'.curBlock = q.curBlock) : Slots B q' slot := by
  have hnear : ∀ c, q'.Near B c ↔ q.Near B c := fun c => by
    rw [PrioQueue.Near, hcur, PrioQueue.Near]
  refine ⟨fun c hc => (hnear c).mpr (h.near c hc), fun c hc => ?_, fun c hc => ?_, h.nodup, h.once,
    hnext ▸ h.free⟩
  · rw [hblocks, hnext]
    exact h.lists c ((hnear c).mp hc)
  · rw [hblocks]
    exact h.occ c ((hnear c).mp hc)

section

variable {ι : Type*} {B c c' d : Nat} {q q' : PrioQueue ι} {slot : Nat → List ι} {x : ι}
  {l : List ι}

theorem getLsbD_shift {i j : Nat} (hj : j < 64) : (1#64 <<< i).getLsbD j = decide (j = i) := by
  rw [BitVec.getLsbD_shiftLeft, BitVec.getLsbD_one]
  simp only [hj, decide_true, Bool.true_and, Nat.zero_lt_succ]
  by_cases h : j = i
  · simp [h]
  · simp only [h, decide_false]
    simp
    omega

/-- Two blocks of the window have different places. -/
theorem block_inj {a b cur : Nat} (ha : cur ≤ a ∧ a < cur + B) (hb : cur ≤ b ∧ b < cur + B)
    (h : a % B = b % B) : a = b := by
  have hsub : ∀ {a b : Nat}, cur ≤ a → b < cur + B → a ≤ b → a % B = b % B → a = b := by
    intro a b ha hb hab h
    have hdvd : B ∣ b - a := Nat.dvd_of_mod_eq_zero (Nat.sub_mod_eq_zero_of_mod_eq h.symm)
    have hzero := Nat.eq_zero_of_dvd_of_lt hdvd (by omega)
    omega
  rcases Nat.le_total a b with hab | hab
  · exact hsub ha.1 hb.2 hab h
  · exact (hsub hb.1 ha.2 hab h.symm).symm

theorem near_inj (h : q.Near B c) (h' : q.Near B d) (hb : d / 64 % B = c / 64 % B)
    (hc : d % 64 = c % 64) : d = c := by
  have hdiv := block_inj h' h hb
  omega

/-- The block of cycle `c`, with another list and other bits. -/
def PrioQueue.setBlock (B c : Nat) (head : Option ι) (occ : BitVec 64) (next : ι → Option ι)
    (q : PrioQueue ι) : PrioQueue ι :=
  { q with
    blocks := update q.blocks (c / 64 % B)
      ⟨update (q.blocks (c / 64 % B)).array (c % 64) head, occ⟩
    next := next }

/-- A change of the list of one cycle is no change of another list of the window. -/
theorem setBlock_array (hc : q.Near B c) (hd : q.Near B d) (head : Option ι) (occ : BitVec 64)
    (next : ι → Option ι) : ((q.setBlock B c head occ next).blocks (d / 64 % B)).array (d % 64) =
      if d = c then head else (q.blocks (d / 64 % B)).array (d % 64) := by
  by_cases hb : d / 64 % B = c / 64 % B
  · by_cases ho : d % 64 = c % 64
    · simp [PrioQueue.setBlock, near_inj hc hd hb ho]
    · have hne : d ≠ c := fun h => ho (by rw [h])
      simp [PrioQueue.setBlock, hb, ho, hne]
  · have hne : d ≠ c := fun h => hb (by rw [h])
    simp [PrioQueue.setBlock, hb, hne]

theorem setBlock_occ (hc : q.Near B c) (hd : q.Near B d) (head : Option ι) (occ : BitVec 64)
    (next : ι → Option ι) (hocc : ∀ j < 64, j ≠ c % 64 →
      occ.getLsbD j = (q.blocks (c / 64 % B)).occ.getLsbD j) :
    ((q.setBlock B c head occ next).blocks (d / 64 % B)).occ.getLsbD (d % 64) =
      if d = c then occ.getLsbD (c % 64) else (q.blocks (d / 64 % B)).occ.getLsbD (d % 64) := by
  by_cases hb : d / 64 % B = c / 64 % B
  · by_cases ho : d % 64 = c % 64
    · simp [PrioQueue.setBlock, near_inj hc hd hb ho]
    · have hne : d ≠ c := fun h => ho (by rw [h])
      simp [PrioQueue.setBlock, hb, hne, hocc (d % 64) (Nat.mod_lt _ (by decide)) ho]
  · have hne : d ≠ c := fun h => hb (by rw [h])
    simp [PrioQueue.setBlock, hb, hne]

/-- The lists once the one of cycle `c` is another one, of objects that are in no other list. -/
theorem Slots.setBlock (h : Slots B q slot) (hc : q.Near B c) {head : Option ι} {occ : BitVec 64}
    {next : ι → Option ι} (hlist : Follows next head l) (hnodup : l.Nodup)
    (hout : ∀ d ≠ c, ∀ y ∈ l, y ∉ slot d)
    (hnext : ∀ d ≠ c, ∀ y ∈ slot d, next y = q.next y)
    (hfree : ∀ y ∉ l, (∀ d ≠ c, y ∉ slot d) → next y = none)
    (hbit : occ.getLsbD (c % 64) = true ↔ l ≠ [])
    (hocc : ∀ j < 64, j ≠ c % 64 → occ.getLsbD j = (q.blocks (c / 64 % B)).occ.getLsbD j) :
    Slots B (q.setBlock B c head occ next) (update slot c l) := by
  refine ⟨fun d hd => ?_, fun d hd => ?_, fun d hd => ?_, fun d => ?_, fun d d' y hy hy' => ?_,
    fun y hy => ?_⟩
  · by_cases hdc : d = c
    · exact hdc ▸ hc
    · rw [update_of_ne hdc] at hd
      exact h.near d hd
  · have hd : q.Near B d := hd
    rw [setBlock_array hc hd]
    by_cases hdc : d = c
    · rw [if_pos hdc, hdc, update_self]
      exact hlist
    · rw [if_neg hdc, update_of_ne hdc]
      exact (h.lists d hd).congr (hnext d hdc)
  · have hd : q.Near B d := hd
    rw [setBlock_occ hc hd head occ next hocc]
    by_cases hdc : d = c
    · rw [if_pos hdc, hdc, update_self]
      exact hbit
    · rw [if_neg hdc, update_of_ne hdc]
      exact h.occ d hd
  · by_cases hdc : d = c
    · rw [hdc, update_self]
      exact hnodup
    · rw [update_of_ne hdc]
      exact h.nodup d
  · by_cases hdc : d = c
    · by_cases hdc' : d' = c
      · rw [hdc, hdc']
      · rw [hdc, update_self] at hy
        rw [update_of_ne hdc'] at hy'
        exact absurd hy' (hout d' hdc' y hy)
    · rw [update_of_ne hdc] at hy
      by_cases hdc' : d' = c
      · rw [hdc', update_self] at hy'
        exact absurd hy (hout d hdc y hy')
      · rw [update_of_ne hdc'] at hy'
        exact h.once d d' y hy hy'
  · refine hfree y ?_ fun d hdc => ?_
    · have hyc := hy c
      rwa [update_self] at hyc
    · have hyd := hy d
      rwa [update_of_ne hdc] at hyd

/-- A block without bits has no objects. -/
theorem Slots.block_empty (h : Slots B q slot) {blk : Nat}
    (hblk : q.curBlock ≤ blk ∧ blk < q.curBlock + B) (hocc : (q.blocks (blk % B)).occ = 0)
    (hc : c / 64 = blk) : slot c = [] := by
  have hnear : q.Near B c := by rw [PrioQueue.Near, hc]; exact hblk
  have hbit := h.occ c hnear
  rw [hc, hocc] at hbit
  simpa using hbit

/-- The lowest bit of a block is that of its first object. -/
theorem Slots.block_first (h : Slots B q slot) {blk : Nat}
    (hblk : q.curBlock ≤ blk ∧ blk < q.curBlock + B) (hocc : (q.blocks (blk % B)).occ ≠ 0)
    (hc : c = blk * 64 + (q.blocks (blk % B)).occ.ctz.toNat) :
    c / 64 = blk ∧ c % 64 = (q.blocks (blk % B)).occ.ctz.toNat ∧ slot c ≠ [] ∧
      ∀ d, d / 64 = blk → d < c → slot d = [] := by
  have hlt : (q.blocks (blk % B)).occ.ctz.toNat < 64 := by
    have hctz := BitVec.ctz_lt_iff_ne_zero.mpr hocc
    simpa [BitVec.lt_def] using hctz
  have hdiv : c / 64 = blk := by omega
  have hmod : c % 64 = (q.blocks (blk % B)).occ.ctz.toNat := by omega
  refine ⟨hdiv, hmod, ?_, fun d hd hdc => ?_⟩
  · rw [← h.occ c (by rw [PrioQueue.Near, hdiv]; exact hblk), hdiv, hmod]
    exact BitVec.getLsbD_true_ctz_of_ne_zero hocc
  · have hbit := h.occ d (by rw [PrioQueue.Near, hd]; exact hblk)
    have hfalse : (q.blocks (blk % B)).occ.getLsbD (d % 64) = false :=
      BitVec.getLsbD_false_of_lt_ctz (by omega)
    rw [hd, hfalse] at hbit
    simpa using hbit

/-- The first cycle of `n` blocks of the window, if one of them has objects. -/
theorem Slots.firstOccupied (h : Slots B q slot) : ∀ {i n : Nat}, i + n ≤ B →
    (∀ c, q.firstOccupied B i n = some c →
      slot c ≠ [] ∧ c / 64 < q.curBlock + i + n ∧
        ∀ d, q.curBlock + i ≤ d / 64 → d < c → slot d = []) ∧
    (q.firstOccupied B i n = none →
      ∀ d, q.curBlock + i ≤ d / 64 → d / 64 < q.curBlock + i + n → slot d = [])
  | i, 0, _ => ⟨by simp [PrioQueue.firstOccupied], fun _ d hlo hhi => by omega⟩
  | i, n + 1, hn => by
    obtain ⟨hsome, hnone⟩ := h.firstOccupied (i := i + 1) (n := n) (by omega)
    have hblk : q.curBlock ≤ q.curBlock + i ∧ q.curBlock + i < q.curBlock + B := by omega
    rw [PrioQueue.firstOccupied]
    by_cases hocc : (q.blocks ((q.curBlock + i) % B)).occ = 0
    · have hempty : ∀ d, d / 64 = q.curBlock + i → slot d = [] :=
        fun d hd => h.block_empty hblk hocc hd
      simp only [hocc, if_true]
      refine ⟨fun c hc => ?_, fun hn d hlo hhi => ?_⟩
      · obtain ⟨hslot, hlt, hbefore⟩ := hsome c hc
        refine ⟨hslot, by omega, fun d hlo hdc => ?_⟩
        by_cases hd : d / 64 = q.curBlock + i
        · exact hempty d hd
        · exact hbefore d (by omega) hdc
      · by_cases hd : d / 64 = q.curBlock + i
        · exact hempty d hd
        · exact hnone hn d (by omega) (by omega)
    · simp only [hocc, if_false]
      refine ⟨fun c hc => ?_, by simp⟩
      obtain ⟨hdiv, -, hslot, hbefore⟩ := h.block_first hblk hocc (Option.some.inj hc).symm
      refine ⟨hslot, by omega, fun d hlo hdc => hbefore d (by omega) hdc⟩

/-- The window moves past an empty block, whose place is taken by the next one. -/
theorem Slots.advance (h : Slots B q slot) (hB : 0 < B)
    (hocc : (q.blocks (q.curBlock % B)).occ = 0) :
    Slots B { q with curBlock := q.curBlock + 1 } slot := by
  have hcur : q.curBlock ≤ q.curBlock ∧ q.curBlock < q.curBlock + B := by omega
  have hsame : ∀ c, PrioQueue.Near B { q with curBlock := q.curBlock + 1 } c →
      q.Near B c ∨ c / 64 = q.curBlock + B ∧ slot c = [] := by
    rintro c ⟨hlo, hhi⟩
    simp only at hlo hhi
    by_cases hc : c / 64 < q.curBlock + B
    · exact .inl ⟨by omega, hc⟩
    · refine .inr ⟨by omega, ?_⟩
      by_contra hne
      exact hc (h.near c hne).2
  refine ⟨fun c hc => ?_, fun c hc => ?_, fun c hc => ?_, h.nodup, h.once, h.free⟩
  · have hne : c / 64 ≠ q.curBlock := fun hd => hc (h.block_empty hcur hocc hd)
    have hnear := h.near c hc
    simp only [PrioQueue.Near] at hnear ⊢
    omega
  · rcases hsame c hc with hnear | ⟨hd, hnil⟩
    · exact h.lists c hnear
    · have hold : q.Near B (q.curBlock * 64 + c % 64) := by
        simp only [PrioQueue.Near]
        omega
      have hlist := h.lists _ hold
      rw [h.block_empty hcur hocc (by omega), show (q.curBlock * 64 + c % 64) / 64 = q.curBlock by
        omega, show (q.curBlock * 64 + c % 64) % 64 = c % 64 by omega] at hlist
      rw [hd, hnil, Nat.add_mod_right]
      exact hlist
  · rcases hsame c hc with hnear | ⟨hd, hnil⟩
    · exact h.occ c hnear
    · rw [hd, hnil, Nat.add_mod_right]
      simp [hocc]

variable [DecidableEq ι]

/-- An object that is in no list goes to the front of the one of its cycle. -/
theorem Slots.place (h : Slots B q slot) (hc : q.Near B c) (hx : ∀ c, x ∉ slot c) : ∃ q',
    q.place B x c = some q' ∧ Slots B q' (update slot c (x :: slot c)) ∧
      q'.curBlock = q.curBlock ∧ q'.feMap = q.feMap ∧ q'.elems = q.elems := by
  refine ⟨q.setBlock B c (some x) ((q.blocks (c / 64 % B)).occ ||| 1#64 <<< (c % 64))
    (update q.next x ((q.blocks (c / 64 % B)).array (c % 64))), ?_, ?_, rfl, rfl, rfl⟩
  · rw [PrioQueue.place, PQBlock.enqueue, h.free x hx]
    rfl
  have hsame : ∀ d, ∀ y ∈ slot d, y ≠ x := fun d y hy hyx => hx d (hyx ▸ hy)
  refine h.setBlock hc ⟨rfl, ?_⟩ (List.nodup_cons.mpr ⟨hx c, h.nodup c⟩) ?_ ?_ ?_ ?_ ?_
  · rw [update_self]
    exact (h.lists c hc).congr fun y hy => update_of_ne (hsame c y hy) _ _
  · intro d hdc y hy hyd
    rcases List.mem_cons.mp hy with rfl | hy
    · exact hx d hyd
    · exact hdc (h.once d c y hyd hy)
  · intro d _ y hy
    rw [update_of_ne (hsame d y hy)]
  · intro y hy hd
    have hyx : y ≠ x := fun hyx => hy (by simp [hyx])
    rw [update_of_ne hyx]
    refine h.free y fun d hyd => ?_
    by_cases hdc : d = c
    · exact hy (by simp [hdc ▸ hyd])
    · exact hd d hdc hyd
  · simp [getLsbD_shift (i := c % 64) (Nat.mod_lt c (by decide : 0 < 64))]
  · intro j hj hne
    simp [getLsbD_shift hj, hne]

/-- The first object of the current block leaves the list of its cycle. -/
theorem Slots.take (h : Slots B q slot) (hB : 0 < B)
    (hocc : (q.blocks (q.curBlock % B)).occ ≠ 0)
    (hc : c = q.curBlock * 64 + (q.blocks (q.curBlock % B)).occ.ctz.toNat) : ∃ x l b next,
    slot c = x :: l ∧ (∀ d < c, slot d = []) ∧
    (q.blocks (q.curBlock % B)).dequeue q.next = some (x, c % 64, b, next) ∧
    Slots B { q with blocks := update q.blocks (q.curBlock % B) b, next := next }
      (update slot c l) := by
  obtain ⟨hdiv, hmod, hne, hfirst⟩ := h.block_first ⟨Nat.le_refl _, by omega⟩ hocc hc
  have hnear : q.Near B c := by rw [PrioQueue.Near, hdiv]; omega
  obtain ⟨x, l, hslot⟩ := List.exists_cons_of_ne_nil hne
  have hlist := h.lists c hnear
  rw [hslot] at hlist
  obtain ⟨hhead, hrest⟩ := hlist
  have hxl : x ∉ l ∧ l.Nodup := List.nodup_cons.mp (hslot ▸ h.nodup c)
  rw [hdiv] at hhead
  have hlast : (q.next x).isNone = true ↔ l = [] := by
    rw [Option.isNone_iff_eq_none, hrest.eq_none]
  have hbit : (q.blocks (q.curBlock % B)).occ.getLsbD (c % 64) = true := by
    rw [hmod]
    exact BitVec.getLsbD_true_ctz_of_ne_zero hocc
  refine ⟨x, l, ⟨update (q.blocks (q.curBlock % B)).array (c % 64) (q.next x),
    if (q.next x).isNone then (q.blocks (q.curBlock % B)).occ ^^^ 1#64 <<< (c % 64)
    else (q.blocks (q.curBlock % B)).occ⟩, update q.next x none, hslot, fun d hdc => ?_, ?_, ?_⟩
  · by_cases hd : d / 64 = q.curBlock
    · exact hfirst d hd hdc
    · by_contra hne
      have hnear := (h.near d hne).1
      omega
  · rw [PQBlock.dequeue, if_neg hocc, ← hmod]
    show Option.map _ ((q.blocks (q.curBlock % B)).array (c % 64)) = _
    rw [hhead]
    rfl
  · have hset : Slots B (q.setBlock B c (q.next x)
        (if (q.next x).isNone then (q.blocks (q.curBlock % B)).occ ^^^ 1#64 <<< (c % 64)
          else (q.blocks (q.curBlock % B)).occ) (update q.next x none)) (update slot c l) := by
      refine h.setBlock hnear
        (hrest.congr fun y hy => update_of_ne (fun hyx : y = x => hxl.1 (hyx ▸ hy)) _ _) hxl.2
        (fun d hdc y hy hyd => hdc (h.once d c y hyd (by simp [hslot, hy]))) ?_ ?_ ?_ ?_
      · intro d hdc y hy
        exact update_of_ne
          (fun hyx : y = x => hdc (h.once d c x (hyx ▸ hy) (by simp [hslot]))) _ _
      · intro y hy hd
        by_cases hyx : y = x
        · rw [hyx, update_self]
        · rw [update_of_ne hyx]
          refine h.free y fun d hyd => ?_
          by_cases hdc : d = c
          · rw [hdc, hslot] at hyd
            exact hy ((List.mem_cons.mp hyd).resolve_left hyx)
          · exact hd d hdc hyd
      · split
        · rename_i hnone
          simp [hlast.mp hnone, hbit,
            getLsbD_shift (i := c % 64) (Nat.mod_lt c (by decide : 0 < 64))]
        · rename_i hsome
          rw [hlast] at hsome
          simp [hbit, hsome]
      · intro j hj hne
        rw [hdiv]
        split
        · simp [getLsbD_shift hj, hne]
        · rfl
    rw [PrioQueue.setBlock, hdiv] at hset
    exact hset

end

end Doppelganger.Weave

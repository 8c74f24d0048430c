import Doppelganger.Mesi.Coherent

/-! Invalidations and downgrades: a coherent subtree stays coherent, ends in the state that was
asked for, and reports a writeback exactly when some cache of it was in state `M`. -/

namespace Doppelganger.Mesi

open MESIState List

/-- The state that an invalidation leaves. -/
def after : InvType → MESIState
  | .INV => I
  | .INVX => S
  | .FWD => S

/-- The state passes the assertion of `MESIBottomCC::processInval`. -/
def accepts : InvType → MESIState → Bool
  | .INV, s => s != I
  | .INVX, s => s == E || s == M
  | .FWD, s => s == S

/-- `processInv` succeeds on the node, as the controllers of its parent rely on. -/
def Invalidates (type : InvType) (n : Node) : Prop :=
  ∀ wb, ∃ n' wb', processInv type n wb = some (n', wb') ∧ Coherent n' ∧ n'.state = after type ∧
    (wb' = true ↔ wb = true ∨ HoldsM n)

/-- A child with its sharer bit, before the loop of `sendInvalidates`. -/
def Ready (type : InvType) (b : Bool) (c : Node) : Prop :=
  Coherent c ∧ (b = true → Invalidates type c) ∧ (b = false → c.state = I)

/-- A child with the sharer bit that it had, after the loop. -/
def Sent (type : InvType) (b : Bool) (c : Node) : Prop :=
  Coherent c ∧ c.state = if b then after type else I

section

variable {type : InvType} {s : MESIState} {e : Entry} {cs left right : List Node} {n c : Node}
  {bs : List Bool} {b : Bool}

theorem invChildren_eq : ∀ {bs : List Bool} {cs : List Node}, Forall₂ (Ready type) bs cs → ∀ wb,
    ∃ cs' wb', invChildren type bs cs wb =
      some (bs.map fun b => b && decide (type ≠ .INV), cs', bs.count true, wb') ∧
      Forall₂ (Sent type) bs cs' ∧ (wb' = true ↔ wb = true ∨ ∃ c ∈ cs, HoldsM c)
  | _, _, .nil, wb => ⟨[], wb, by simp [invChildren], .nil, by simp⟩
  | true :: bs, c :: cs, .cons ⟨_, hinv, _⟩ hall, wb => by
    obtain ⟨c', wb1, h1, hc1, hs1, hw1⟩ := hinv rfl wb
    obtain ⟨cs', wb2, h2, hsent, hw2⟩ := invChildren_eq hall wb1
    refine ⟨c' :: cs', wb2, by simp [invChildren, h1, h2], .cons ⟨hc1, by simpa using hs1⟩ hsent,
      ?_⟩
    rw [hw2, hw1]
    simp [or_assoc]
  | false :: bs, c :: cs, .cons ⟨hc, _, hs⟩ hall, wb => by
    obtain ⟨cs', wb2, h2, hsent, hw2⟩ := invChildren_eq hall wb
    refine ⟨c :: cs', wb2, by simp [invChildren, h2], .cons ⟨hc, by simpa using hs rfl⟩ hsent, ?_⟩
    rw [hw2]
    simp [hc.clean (.inl (hs rfl))]

/-- The loop over two parts of the children is one over each. -/
theorem invChildren_append (type : InvType) (bs : List Bool) (cs : List Node) :
    ∀ {lb : List Bool} {left : List Node}, lb.length = left.length → ∀ wb,
    invChildren type (lb ++ bs) (left ++ cs) wb =
      (invChildren type lb left wb).bind fun (lb', left', n, wb) =>
        (invChildren type bs cs wb).map fun (bs', cs', m, wb) =>
          (lb' ++ bs', left' ++ cs', n + m, wb)
  | [], [], _, wb => by
    simp [invChildren]
  | true :: lb, c :: left, h, wb => by
    simp only [cons_append, invChildren]
    cases hp : processInv type c wb with
    | none => rfl
    | some p =>
      rw [Option.bind_some, Option.bind_some, invChildren_append type bs cs (by simpa using h)]
      cases hl : invChildren type lb left p.2 with
      | none => rfl
      | some l =>
        cases hr : invChildren type bs cs l.2.2.2 <;> simp [hr, Nat.add_right_comm]
  | false :: lb, c :: left, h, wb => by
    simp only [cons_append, invChildren]
    rw [invChildren_append type bs cs (by simpa using h)]
    cases hl : invChildren type lb left wb with
    | none => rfl
    | some l => cases hr : invChildren type bs cs l.2.2.2 <;> simp [hr]

/-- Without sharers the loop does nothing. -/
theorem invChildren_none (type : InvType) : ∀ {bs : List Bool} {cs : List Node},
    (∀ b ∈ bs, b = false) → ∀ wb, invChildren type bs cs wb = some (bs, cs, 0, wb)
  | bs, [], _, wb => by simp [invChildren]
  | [], c :: cs, _, wb => by simp [invChildren]
  | true :: bs, c :: cs, h, wb => by simpa using h true
  | false :: bs, c :: cs, h, wb => by
    rw [invChildren, invChildren_none type fun b hb => h b (by simp [hb])]
    rfl

theorem Entry.Counted.empty (hc : e.Counted) (he : e.isEmpty = true) :
    ∀ b ∈ e.sharers, b = false := by
  have h0 : e.sharers.count true = 0 := by
    rw [← hc.count]
    simpa [Entry.isEmpty] using he
  intro b hb
  cases b with
  | false => rfl
  | true => exact absurd hb (count_eq_zero.mp h0)

/-- An INV empties the entry. -/
theorem tccSendInvalidates_inv (hc : e.Counted) {bs' : List Bool} {cs' : List Node} {wb wb' : Bool}
    (hloop : invChildren .INV e.sharers cs wb = some (bs', cs', e.sharers.count true, wb')) :
    tccSendInvalidates .INV e cs wb = some (⟨0, bs', e.exclusive⟩, cs', wb') := by
  rw [tccSendInvalidates, sendInvalidates, if_neg (by simp)]
  by_cases he : e.isEmpty = true
  · rw [invChildren_none .INV (hc.empty he)] at hloop
    simp only [Option.some.injEq, Prod.mk.injEq] at hloop
    obtain ⟨rfl, rfl, -, rfl⟩ := hloop
    have h0 : e.numSharers = 0 := by simpa [Entry.isEmpty] using he
    rw [if_pos he, ← h0]
  · rw [if_neg he, hloop, Option.bind_some]
    simp [hc.count]

/-- An INVX takes exclusivity from an exclusive entry. -/
theorem tccSendInvalidates_invx (hc : e.Counted) (he : e.isExclusive = true) {bs' : List Bool}
    {cs' : List Node} {wb wb' : Bool}
    (hloop : invChildren .INVX e.sharers cs wb = some (bs', cs', e.sharers.count true, wb')) :
    tccSendInvalidates .INVX e cs wb = some (⟨1, bs', false⟩, cs', wb') := by
  have he' : e.numSharers = 1 ∧ e.exclusive = true := by simpa [Entry.isExclusive] using he
  have hcount : e.sharers.count true = 1 := hc.count.symm.trans he'.1
  rw [tccSendInvalidates, sendInvalidates, if_neg (by simp [he]),
    if_neg (by simp [Entry.isEmpty, he'.1]), hloop, Option.bind_some]
  simp [hcount, he'.1, he'.2]

/-- The entry that an INV leaves. -/
theorem counted_inv (bs : List Bool) (x : Bool) :
    Entry.Counted ⟨0, bs.map fun b => b && decide (InvType.INV ≠ .INV), x⟩ :=
  ⟨(count_eq_zero.mpr (by simp)).symm, by simp⟩

theorem Sent.invalid (h : Sent .INV b c) : c.state = I := by
  cases b <;> simpa [after] using h.2

/-- After an INV no child has the line. -/
theorem agrees_inv {bs : List Bool} (h : Forall₂ (Sent .INV) bs cs) (s : MESIState) (e : Entry) :
    Forall₂ (fun b c => Agrees s e b c.state) (bs.map fun b => b && decide (InvType.INV ≠ .INV))
      cs := by
  rw [forall₂_map_left_iff]
  refine h.imp fun b c hc => ?_
  rw [hc.invalid]
  simpa using Agrees.absent s e

/-- After an INVX the owner shares the line. -/
theorem agrees_invx {bs : List Bool} (h : Forall₂ (Sent .INVX) bs cs) (hs : s ≠ I)
    (he : e.isExclusive = false) :
    Forall₂ (fun b c => Agrees s e b c.state) (bs.map fun b => b && decide (InvType.INVX ≠ .INV))
      cs := by
  rw [forall₂_map_left_iff]
  refine h.imp fun b c hc => ?_
  rw [hc.2]
  cases b
  · simpa using Agrees.absent s e
  · simpa [after] using Agrees.sharing hs he

theorem Forall₂.coherent {bs : List Bool} (h : Forall₂ (Sent type) bs cs) :
    ∀ c ∈ cs, Coherent c := by
  induction h with
  | nil => simp
  | cons hc _ ih => simpa using ⟨hc.1, ih⟩

/-- The children of a coherent cache are ready for an INV. -/
theorem ready_inv (hcs : ∀ c ∈ cs, Coherent c) (hinv : ∀ c ∈ cs, c.state ≠ I → Invalidates .INV c)
    {bs : List Bool} (hall : Forall₂ (fun b c => Agrees s e b c.state) bs cs) :
    Forall₂ (Ready .INV) bs cs := by
  refine (forall₂_and_right hall fun c hc => And.intro (hcs c hc) (hinv c hc)).imp ?_
  rintro b c ⟨hb, hc, hi⟩
  refine ⟨hc, ?_, ?_⟩
  · rintro rfl
    exact hi fun hI => Bool.noConfusion (hI ▸ hb).of_invalid
  · rintro rfl
    exact hb.of_bit

/-- The children of a coherent cache with an owner are ready for an INVX. -/
theorem ready_invx (he : e.isExclusive = true) (hcs : ∀ c ∈ cs, Coherent c)
    (hinv : ∀ c ∈ cs, c.state = M ∨ c.state = E → Invalidates .INVX c) {bs : List Bool}
    (hall : Forall₂ (fun b c => Agrees s e b c.state) bs cs) : Forall₂ (Ready .INVX) bs cs := by
  refine (forall₂_and_right hall fun c hc => And.intro (hcs c hc) (hinv c hc)).imp ?_
  rintro b c ⟨hb, hc, hi⟩
  refine ⟨hc, ?_, ?_⟩
  · rintro rfl
    exact hi (hb.owner he).1
  · rintro rfl
    exact hb.of_bit

theorem holdsM_terminal : HoldsM (.terminal s) ↔ s = M :=
  ⟨fun h => by cases h; assumption, fun h => .here h⟩

theorem holdsM_cache : HoldsM (.cache s e cs) ↔ s = M ∨ ∃ c ∈ cs, HoldsM c := by
  constructor
  · rintro (h | ⟨hc, h⟩)
    · exact .inl h
    · exact .inr ⟨_, hc, h⟩
  · rintro (h | ⟨c, hc, h⟩)
    · exact .here h
    · exact .child hc h

/-- The children of a cache whose entry is not exclusive are clean. -/
theorem clean_children (he : e.isExclusive = false) (hcs : ∀ c ∈ cs, Coherent c) {bs : List Bool}
    (hall : Forall₂ (fun b c => Agrees s e b c.state) bs cs) : ∀ c ∈ cs, ¬HoldsM c := by
  intro c hc
  obtain ⟨b, -, hb⟩ := agrees_of_mem hall hc
  refine (hcs c hc).clean ?_
  cases b
  · exact .inl hb.of_bit
  · exact .inr (hb.sharer he).1

/-- An INV of the children, whatever the cache does next with its own copy. -/
theorem tccSendInvalidates_all (hc : e.Counted)
    (hall : Forall₂ (fun b c => Agrees s e b c.state) e.sharers cs) (hcs : ∀ c ∈ cs, Coherent c)
    (hinv : ∀ c ∈ cs, c.state ≠ I → Invalidates .INV c) (wb : Bool) : ∃ e' cs' wb',
    tccSendInvalidates .INV e cs wb = some (e', cs', wb') ∧
      (∀ s', Coherent (.cache s' e' cs')) ∧
      (wb' = true ↔ wb = true ∨ ∃ c ∈ cs, HoldsM c) := by
  obtain ⟨cs', wb', hloop, hsent, hwb⟩ := invChildren_eq (ready_inv hcs hinv hall) wb
  exact ⟨_, cs', wb', tccSendInvalidates_inv hc hloop, fun s' => .cache (counted_inv _ _)
    (agrees_inv hsent _ _) (Forall₂.coherent hsent), hwb⟩

/-- An INVX of the owner, from a cache that loses its own right to write. -/
theorem tccSendInvalidates_owner (hc : e.Counted)
    (hall : Forall₂ (fun b c => Agrees s e b c.state) e.sharers cs) (hcs : ∀ c ∈ cs, Coherent c)
    (hinv : ∀ c ∈ cs, c.state = M ∨ c.state = E → Invalidates .INVX c) (wb : Bool) : ∃ e' cs' wb',
    tccSendInvalidates .INVX e cs wb = some (e', cs', wb') ∧ Coherent (.cache S e' cs') ∧
      (wb' = true ↔ wb = true ∨ ∃ c ∈ cs, HoldsM c) := by
  by_cases he : e.isExclusive = true
  · obtain ⟨cs', wb', hloop, hsent, hwb⟩ := invChildren_eq (ready_invx he hcs hinv hall) wb
    have hcount : e.sharers.count true = 1 := by
      have he : e.numSharers = 1 ∧ e.exclusive = true := by simpa [Entry.isExclusive] using he
      exact hc.count.symm.trans he.1
    refine ⟨_, cs', wb', tccSendInvalidates_invx hc he hloop, .cache ⟨?_, by simp⟩
      (agrees_invx hsent (by simp) (by simp [Entry.isExclusive])) (Forall₂.coherent hsent), hwb⟩
    simp [hcount]
  · have he : e.isExclusive = false := by simpa using he
    refine ⟨e, cs, wb, by simp [tccSendInvalidates, sendInvalidates, he], .cache hc ?_ hcs, ?_⟩
    · refine hall.imp fun b c hb => ?_
      cases b
      · rw [hb.of_bit]
        exact .absent _ _
      · rw [(hb.sharer he).1]
        exact .sharing (by simp) he
    · exact (or_iff_left (by simpa using clean_children he hcs hall)).symm

theorem processInv_cache (h : type ≠ .FWD) (s : MESIState) (e : Entry) (cs : List Node)
    (wb : Bool) :
    processInv type (.cache s e cs) wb = (tccSendInvalidates type e cs wb).bind
      fun (e, cs, wb) => (bccProcessInval type s wb).map fun (s, wb) => (.cache s e cs, wb) := by
  rw [processInv, tccSendInvalidates]
  simp [h]

/-- A coherent subtree that has the line accepts an INV, and one that may write it an INVX. -/
theorem Coherent.invalidates (h : Coherent n) : (n.state ≠ I → Invalidates .INV n) ∧
    (n.state = M ∨ n.state = E → Invalidates .INVX n) := by
  induction h with
  | terminal s =>
    constructor <;> intro hs wb
    · have hs : s ≠ I := hs
      refine ⟨.terminal I, wb || s == M, ?_, .terminal _, rfl, ?_⟩
      · simp [processInv, bccProcessInval, hs]
      · simp [holdsM_terminal]
    · have hs : s = M ∨ s = E := hs
      have hI : s ≠ I := by rcases hs with rfl | rfl <;> simp
      refine ⟨.terminal S, wb || s == M, ?_, .terminal _, rfl, ?_⟩
      · simp [processInv, bccProcessInval, hI, or_comm.mp hs]
      · simp [holdsM_terminal]
  | @cache s e cs hc hall hcs ih =>
    constructor <;> intro hs wb
    · have hs : s ≠ I := hs
      obtain ⟨e', cs', wb', htop, hcoh, hwb⟩ :=
        tccSendInvalidates_all hc hall hcs (fun c hc => (ih c hc).1) wb
      refine ⟨.cache I e' cs', wb' || s == M, ?_, hcoh I, rfl, ?_⟩
      · rw [processInv_cache (by simp), htop]
        simp [bccProcessInval, hs]
      · rw [holdsM_cache, Bool.or_eq_true, hwb, beq_iff_eq, or_assoc, @or_comm (s = M)]
    · have hs : s = M ∨ s = E := hs
      have hI : s ≠ I := by rcases hs with rfl | rfl <;> simp
      obtain ⟨e', cs', wb', htop, hcoh, hwb⟩ :=
        tccSendInvalidates_owner hc hall hcs (fun c hc => (ih c hc).2) wb
      refine ⟨.cache S e' cs', wb' || s == M, ?_, hcoh, rfl, ?_⟩
      · rw [processInv_cache (by simp), htop]
        simp [bccProcessInval, hI, or_comm.mp hs]
      · rw [holdsM_cache, Bool.or_eq_true, hwb, beq_iff_eq, or_assoc, @or_comm (s = M)]

/-- A line in state `S` can be forwarded, and nothing changes. -/
theorem processInv_fwd (hs : n.state = S) (wb : Bool) : processInv .FWD n wb = some (n, wb) := by
  cases n with
  | terminal s =>
    obtain rfl : s = S := hs
    rfl
  | cache s e cs =>
    obtain rfl : s = S := hs
    simp [processInv, bccProcessInval]

/-- The asserts of `processInval` hold on a coherent subtree whose own state passes them. -/
theorem Coherent.invalidate (h : Coherent n) (ha : accepts type n.state = true) :
    Invalidates type n := by
  cases type with
  | INV => exact h.invalidates.1 (by simpa [accepts] using ha)
  | INVX => exact h.invalidates.2 (by simpa [accepts, or_comm] using ha)
  | FWD =>
    have hs : n.state = S := by simpa [accepts] using ha
    exact fun wb => ⟨n, wb, processInv_fwd hs wb, h, hs, by simp [h.clean (.inr hs)]⟩

end

end Doppelganger.Mesi

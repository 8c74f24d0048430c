import Doppelganger.Mesi.Invalidate

/-! Requests: what a request of a child does to the frame around it, and what it does to all the
ancestors. -/

namespace Doppelganger.Mesi

open MESIState List

/-- The frame has a dirty copy, its own or that of a cache beside the child. -/
def Frame.HoldsM (f : Frame) : Prop := f.state = M ∨ ∃ c ∈ f.left ++ f.right, Mesi.HoldsM c

section

variable {s st : MESIState} {e e' : Entry} {b : Bool} {cs left right : List Node} {child : Node}
  {f : Frame} {fs : List Frame} {bs lb rb : List Bool} {type : InvType} {flags : Flags}

theorem Frame.unplug_plug (f : Frame) (child : Node) :
    (f.plug child).unplug f.left.length = some (f, child) := by
  simp [Frame.plug, Node.unplug]

theorem aboveM_cons : AboveM (f :: fs) ↔ f.HoldsM ∨ AboveM fs := by
  simp only [AboveM, mem_cons, exists_eq_or_imp, Frame.HoldsM]

theorem modify_hole (left right : List Node) (c : Node) (g : Node → Node) :
    (left ++ c :: right).modify left.length g = left ++ g c :: right := by
  induction left with
  | nil => rfl
  | cons c left ih => simpa using ih

/-- The loop of `sendInvalidates` around a child that is not a sharer. -/
theorem invChildren_hole (hl : Forall₂ (Ready type) lb left) (hr : Forall₂ (Ready type) rb right)
    (child : Node) (wb : Bool) : ∃ left' right' wb',
    invChildren type (lb ++ false :: rb) (left ++ child :: right) wb =
      some ((lb.map fun b => b && decide (type ≠ .INV)) ++
          false :: rb.map fun b => b && decide (type ≠ .INV), left' ++ child :: right',
        (lb ++ false :: rb).count true, wb') ∧
      Forall₂ (Sent type) lb left' ∧ Forall₂ (Sent type) rb right' ∧
      (wb' = true ↔ wb = true ∨ ∃ c ∈ left ++ right, HoldsM c) := by
  obtain ⟨left', wb1, h1, hsl, hw1⟩ := invChildren_eq hl wb
  obtain ⟨right', wb2, h2, hsr, hw2⟩ := invChildren_eq hr wb1
  refine ⟨left', right', wb2, ?_, hsl, hsr, ?_⟩
  · rw [invChildren_append type _ _ hl.length_eq, h1]
    simp [invChildren, h2]
  · rw [hw2, hw1, or_assoc]
    simp only [mem_append, or_and_right, exists_or]

/-- Without sharers no child has the line. -/
theorem absent_of_bits (h : Forall₂ (fun b c => Agrees s e b c.state) bs cs)
    (hbs : ∀ b ∈ bs, b = false) : Forall₂ (fun b c => b = false ∧ c.state = I) bs cs := by
  refine ((forall₂_and_left _ _).mpr ⟨hbs, h⟩).imp ?_
  rintro b c ⟨rfl, hb⟩
  exact ⟨rfl, hb.of_bit⟩

theorem agrees_absent (s : MESIState) (e : Entry)
    (h : Forall₂ (fun b c => b = false ∧ c.state = I) bs cs) :
    Forall₂ (fun b c => Agrees s e b c.state) bs cs := by
  refine h.imp ?_
  rintro b c ⟨rfl, hc⟩
  rw [hc]
  exact .absent s e

/-- Only the exclusivity of the entry matters to a sharer, and nothing to the others. -/
theorem agrees_entry (h : Forall₂ (fun b c => Agrees s e b c.state) bs cs)
    (he : e'.isExclusive = e.isExclusive ∨ ∀ b ∈ bs, b = false) :
    Forall₂ (fun b c => Agrees s e' b c.state) bs cs := by
  rcases he with he | he
  · refine h.imp ?_
    rintro b c ⟨h1, h2, h3, h4⟩
    exact ⟨he ▸ h1, he ▸ h2, h3, h4⟩
  · exact agrees_absent s e' (absent_of_bits h he)

namespace Frame.Fits

variable (h : f.Fits lb rb b st)

include h

theorem length_left : lb.length = f.left.length := h.left.length_eq

theorem sharer : f.entry.sharer f.left.length = b := by
  rw [Entry.sharer, h.sharers, ← h.length_left]
  simp

theorem set (b' : Bool) : f.entry.sharers.set f.left.length b' = lb ++ b' :: rb := by
  rw [h.sharers, ← h.length_left]
  simp

theorem count : f.entry.numSharers = lb.count true + rb.count true + b.toNat := by
  rw [h.counted.count, h.sharers]
  cases b <;> simp [Nat.add_assoc]

theorem coherent_left : ∀ c ∈ f.left, Coherent c := fun c hc => h.coherent c (mem_append_left _ hc)

theorem coherent_right : ∀ c ∈ f.right, Coherent c :=
  fun c hc => h.coherent c (mem_append_right _ hc)

/-- A child with the line is a sharer. -/
theorem bit (hst : st ≠ I) : b = true := by
  cases b with
  | true => rfl
  | false => exact absurd h.hole.of_bit hst

/-- The child is the only sharer of an exclusive entry. -/
theorem alone (he : f.entry.isExclusive = true) (hb : b = true) : ∀ b' ∈ lb ++ rb, b' = false := by
  have hn := h.count
  have he : f.entry.numSharers = 1 ∧ f.entry.exclusive = true := by
    simpa [Entry.isExclusive] using he
  rw [he.1, hb] at hn
  have hz : (lb ++ rb).count true = 0 := by
    rw [count_append]
    simpa using hn.symm
  intro b' hb'
  cases b' with
  | false => rfl
  | true => exact absurd hb' (count_eq_zero.mp hz)

/-- The cache of the frame gains rights. -/
theorem raise (hs : f.state ≠ I → s ≠ I) (hx : f.state = M ∨ f.state = E → s = M ∨ s = E) :
    Frame.Fits { f with state := s } lb rb b st where
  sharers := h.sharers
  counted := h.counted
  left := h.left.imp fun _ _ ha => ha.raise hs hx
  right := h.right.imp fun _ _ ha => ha.raise hs hx
  hole := h.hole.raise hs hx
  coherent := h.coherent

/-- The child turns from `E` to `M`. -/
theorem dirtied (hst : st = E) : f.Fits lb rb b M :=
  { h with hole := (hst ▸ h.hole).dirtied }

theorem agrees {c : Node} (hc : c ∈ f.left ++ f.right) :
    ∃ b ∈ lb ++ rb, Agrees f.state f.entry b c.state :=
  agrees_of_mem (rel_append h.left h.right) hc

/-- When the child is the sharer of an exclusive entry, the other children do not have the line. -/
theorem others (he : f.entry.isExclusive = true) (hb : b = true) {c : Node}
    (hc : c ∈ f.left ++ f.right) : c.state = I := by
  obtain ⟨b', hb', hagrees⟩ := h.agrees hc
  rw [h.alone he hb b' hb'] at hagrees
  exact hagrees.of_bit

/-- With a child in `E` or `M` the siblings are clean, and with one that shares the line. -/
theorem clean (hst : st ≠ I) : ∀ c ∈ f.left ++ f.right, ¬Mesi.HoldsM c := by
  intro c hc
  refine (h.coherent c hc).clean ?_
  by_cases he : f.entry.isExclusive = true
  · exact .inl (h.others he (h.bit hst) hc)
  · obtain ⟨b', -, hagrees⟩ := h.agrees hc
    cases b' with
    | false => exact .inl hagrees.of_bit
    | true => exact .inr (hagrees.sharer (by simpa using he)).1

end Frame.Fits

/-- The line turns from `E` to `M` without a request. -/
theorem Above.dirtied (h : Above fs E) : Above fs M := by
  cases fs with
  | nil => trivial
  | cons f fs =>
    obtain ⟨⟨lb, rb, b, hf⟩, h⟩ := h
    exact ⟨⟨lb, rb, b, hf.dirtied rfl⟩, h⟩

/-- Beside the way to a cache that has the line nobody has a dirty copy. -/
theorem Above.clean : ∀ {fs : List Frame} {st : MESIState}, Above fs st → st ≠ I →
    ∀ f ∈ fs, ¬∃ c ∈ f.left ++ f.right, HoldsM c
  | [], _, _, _ => by simp
  | f :: fs, st, ⟨⟨lb, rb, b, hf⟩, h⟩, hst => by
    rw [forall_mem_cons]
    refine ⟨fun ⟨c, hc, hm⟩ => hf.clean hst c hc hm, h.clean ?_⟩
    exact (hf.bit hst ▸ hf.hole).not_invalid

/-- The child is the only one that has the line. -/
theorem fits_only (hs : s = M ∨ s = E) (hst : st = M ∨ st = E)
    (hl : Forall₂ (fun b c => b = false ∧ c.state = I) lb left)
    (hr : Forall₂ (fun b c => b = false ∧ c.state = I) rb right)
    (hcs : ∀ c ∈ left ++ right, Coherent c) :
    Frame.Fits ⟨s, ⟨1, lb ++ true :: rb, true⟩, left, right⟩ lb rb true st := by
  have hzero : ∀ {bs : List Bool} {cs : List Node},
      Forall₂ (fun b c => b = false ∧ c.state = I) bs cs → bs.count true = 0 := by
    intro bs cs h
    induction h with
    | nil => rfl
    | cons hb _ ih => rw [hb.1, count_cons_of_ne (by simp), ih]
  refine ⟨rfl, ⟨?_, by simp⟩, agrees_absent s _ hl, agrees_absent s _ hr, .owning hs rfl hst, hcs⟩
  rw [count_append, count_cons_self, hzero hl, hzero hr]

/-- The child shares the line with those that share it already. -/
theorem fits_sharing (hs : s ≠ I) (he : e.isExclusive = false) {n : Nat}
    (hn : n = lb.count true + rb.count true + 1)
    (hl : Forall₂ (fun b c => Agrees s e b c.state) lb left)
    (hr : Forall₂ (fun b c => Agrees s e b c.state) rb right)
    (hcs : ∀ c ∈ left ++ right, Coherent c) :
    Frame.Fits ⟨s, ⟨n, lb ++ true :: rb, false⟩, left, right⟩ lb rb true S := by
  have hnew : Entry.isExclusive ⟨n, lb ++ true :: rb, false⟩ = false := by
    rw [Entry.isExclusive, Bool.and_false]
  have hsame := hnew.trans he.symm
  refine ⟨rfl, ⟨?_, by simp⟩, agrees_entry hl (.inl hsame), agrees_entry hr (.inl hsame),
    .sharing hs hnew, hcs⟩
  rw [count_append, count_cons_self, hn, Nat.add_assoc]

/-- A GETS gives a child that does not have the line a clean copy, and takes exclusivity from the
owner. -/
theorem tccProcessAccess_gets (h : f.Fits lb rb b I) (hs : f.state ≠ I) (child : Node)
    (flags : Flags) : ∃ e' left' right' lb' rb' wb st,
    tccProcessAccess .GETS flags f.left.length (isExclusive f.state) f.entry
      (f.left ++ child :: f.right) = some (e', left' ++ child.setState st :: right', wb) ∧
    left'.length = f.left.length ∧ (st = S ∨ st = E) ∧
    Frame.Fits ⟨f.state, e', left', right'⟩ lb' rb' true st ∧
    (wb = true ↔ ∃ c ∈ f.left ++ f.right, HoldsM c) := by
  obtain rfl := h.hole.of_invalid
  have hn := h.count
  simp only [Bool.toNat_false, Nat.add_zero] at hn
  simp only [tccProcessAccess, h.sharer, h.set]
  by_cases hgive : f.entry.isEmpty ∧ isExclusive f.state ∧ flags.noExcl = false
  · -- No child has the line.
    obtain ⟨hempty, hx, -⟩ := id hgive
    have hbits := h.counted.empty hempty
    simp only [h.sharers, mem_append, mem_cons] at hbits
    have hl := absent_of_bits h.left fun b hb => hbits b (.inl hb)
    have hr := absent_of_bits h.right fun b hb => hbits b (.inr (.inr hb))
    have hfits := fits_only (s := f.state) (by simpa [isExclusive, or_comm] using hx) (.inr rfl)
      hl hr h.coherent
    refine ⟨_, _, _, _, _, false, E, by rw [if_pos hgive, modify_hole], rfl, .inr rfl, hfits, ?_⟩
    simpa using hfits.clean (by simp)
  · rw [if_neg hgive, if_neg (by simp)]
    by_cases he : f.entry.isExclusive = true
    · -- The owner keeps a shared copy.
      obtain ⟨left', right', wb', hloop, hsl, hsr, hwb⟩ := invChildren_hole
        (ready_invx he h.coherent_left (fun c hc => (h.coherent_left c hc).invalidates.2) h.left)
        (ready_invx he h.coherent_right (fun c hc => (h.coherent_right c hc).invalidates.2) h.right)
        child false
      have he' : f.entry.numSharers = 1 := by
        simp only [Entry.isExclusive, Bool.and_eq_true, beq_iff_eq] at he
        exact he.1
      have hlen : left'.length = f.left.length := by rw [← hsl.length_eq, h.length_left]
      have hfits := fits_sharing (e := ⟨1, [], false⟩) hs rfl (n := 1 + 1) (by simp; omega)
        (agrees_invx hsl hs rfl) (agrees_invx hsr hs rfl) fun c hc =>
          (mem_append.mp hc).elim (Forall₂.coherent hsl c) (Forall₂.coherent hsr c)
      refine ⟨_, _, _, _, _, wb', S, ?_, hlen, .inl rfl, hfits, by simpa using hwb⟩
      rw [← h.sharers] at hloop
      rw [if_pos he, tccSendInvalidates_invx h.counted he hloop, Option.bind_some]
      simp [Entry.isExclusive, ← hlen, modify_hole, hsl.length_eq]
    · -- The child is one more sharer.
      have he : f.entry.isExclusive = false := by simpa using he
      have hfits := fits_sharing hs he (n := f.entry.numSharers + 1) (by omega) h.left h.right
        h.coherent
      refine ⟨_, _, _, _, _, false, S, ?_, rfl, .inl rfl, hfits, ?_⟩
      · simp [he, h.set, modify_hole]
      · simpa using hfits.clean (by simp)

/-- The entry once the child is out of it. -/
theorem Frame.Fits.counted_out (h : f.Fits lb rb b st) :
    Entry.Counted ⟨lb.count true + rb.count true, lb ++ false :: rb, f.entry.exclusive⟩ := by
  refine ⟨by simp, fun hn => h.counted.several ?_⟩
  have hle := h.count
  have hn : 1 < lb.count true + rb.count true := hn
  omega

/-- No sibling has the line after an INV. -/
theorem absent_of_sent (h : Forall₂ (Sent .INV) bs cs) :
    Forall₂ (fun b c => b = false ∧ c.state = I)
      (bs.map fun b => b && decide (InvType.INV ≠ .INV)) cs := by
  rw [forall₂_map_left_iff]
  exact h.imp fun b c hc => ⟨by simp, hc.invalid⟩

/-- A GETX gives the child the only copy, in state `M`. -/
theorem tccProcessAccess_getx (h : f.Fits lb rb b st) (hst : st = I ∨ st = S) (hs : f.state = M)
    (child : Node) (flags : Flags) : ∃ e' left' right' lb' rb' wb,
    tccProcessAccess .GETX flags f.left.length (isExclusive f.state) f.entry
      (f.left ++ child :: f.right) = some (e', left' ++ child.setState M :: right', wb) ∧
    left'.length = f.left.length ∧ Frame.Fits ⟨f.state, e', left', right'⟩ lb' rb' true M := by
  have hupgraded : (if f.entry.sharer f.left.length then
      if f.entry.isExclusive then none
      else some ⟨f.entry.numSharers - 1, f.entry.sharers.set f.left.length false, f.entry.exclusive⟩
      else some f.entry) =
      some ⟨lb.count true + rb.count true, lb ++ false :: rb, f.entry.exclusive⟩ := by
    have hn := h.count
    rw [h.sharer, h.set]
    cases b with
    | false =>
      rw [← h.sharers]
      simp only [Bool.toNat_false, Nat.add_zero] at hn
      simp [← hn]
    | true =>
      have hS : st = S := hst.resolve_left fun hI => Bool.noConfusion (hI ▸ h.hole).of_invalid
      have he := (h.hole.shared.mp hS).1
      simp only [Bool.toNat_true] at hn
      simp [he, hn]
  obtain ⟨left', right', wb', hloop, hsl, hsr, -⟩ := invChildren_hole
    (ready_inv h.coherent_left (fun c hc => (h.coherent_left c hc).invalidates.1) h.left)
    (ready_inv h.coherent_right (fun c hc => (h.coherent_right c hc).invalidates.1) h.right)
    child false
  have hlen : left'.length = f.left.length := by rw [← hsl.length_eq, h.length_left]
  have hfits := fits_only (s := f.state) (.inl hs) (.inl rfl) (absent_of_sent hsl)
    (absent_of_sent hsr) fun c hc =>
      (mem_append.mp hc).elim (Forall₂.coherent hsl c) (Forall₂.coherent hsr c)
  refine ⟨_, _, _, _, _, wb', ?_, hlen, hfits⟩
  simp only [tccProcessAccess, hupgraded, isExclusive, hs, beq_self_eq_true, Bool.or_true, if_true,
    Option.bind_some, tccSendInvalidates_inv h.counted_out hloop]
  simp [← hlen, modify_hole, hsl.length_eq]

/-- Once a sharer is out, the entry is exclusive when it was, or nobody has the line. -/
theorem Frame.Fits.exclusive_out (h : f.Fits lb rb true st) :
    Entry.isExclusive ⟨lb.count true + rb.count true, lb ++ false :: rb, f.entry.exclusive⟩ =
      f.entry.isExclusive ∨ ∀ b ∈ lb ++ rb, b = false := by
  by_cases he : f.entry.isExclusive = true
  · exact .inr (h.alone he rfl)
  · left
    have hn := h.count
    have hseveral := h.counted.several
    simp only [Bool.toNat_true] at hn
    have hfalse : f.entry.exclusive = false := by
      by_contra hx
      simp only [Bool.not_eq_false] at hx
      have h1 : f.entry.numSharers ≠ 1 := fun h1 => he (by simp [Entry.isExclusive, h1, hx])
      rw [hseveral (by omega)] at hx
      exact Bool.noConfusion hx
    simp [Entry.isExclusive, hfalse]

/-- A PUTS or a PUTX of an owner takes the child out of the entry. -/
theorem tccProcessAccess_put {type : AccessType} (h : f.Fits lb rb b st) (hst : st ≠ I)
    (htype : type = .PUTS ∨ type = .PUTX ∧ st = M) (haveExclusive : Bool) (child : Node) :
    ∃ e', tccProcessAccess type ⟨false, false⟩ f.left.length haveExclusive f.entry
      (f.left ++ child :: f.right) = some (e', f.left ++ child.setState I :: f.right, false) ∧
    Frame.Fits { f with entry := e' } lb rb false I := by
  obtain rfl : b = true := h.bit hst
  have hout := h.exclusive_out
  refine ⟨⟨lb.count true + rb.count true, lb ++ false :: rb, f.entry.exclusive⟩, ?_, rfl,
    h.counted_out,
    agrees_entry h.left (hout.imp_right fun hall b hb => hall b (mem_append_left _ hb)),
    agrees_entry h.right (hout.imp_right fun hall b hb => hall b (mem_append_right _ hb)),
    .absent _ _, h.coherent⟩
  have hn := h.count
  simp only [Bool.toNat_true] at hn
  rcases htype with rfl | ⟨rfl, hM⟩
  · simp [tccProcessAccess, h.sharer, h.set, modify_hole, hn]
  · have he := (h.hole.exclusive.mp (.inl hM)).1
    simp [tccProcessAccess, h.sharer, h.set, modify_hole, hn, he]

end

end Doppelganger.Mesi

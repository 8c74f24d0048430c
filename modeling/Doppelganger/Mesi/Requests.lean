import Doppelganger.Mesi.Access

/-! Whole requests and evictions: what they do to a node and to all its ancestors. -/

namespace Doppelganger.Mesi

open MESIState List

/-- Each ancestor with a dirty copy beside the way takes it over. -/
def TakenOver (fs fs' : List Frame) : Prop :=
  Forall₂ (fun f f' => (∃ c ∈ f.left ++ f.right, HoldsM c) → f'.state = M) fs fs'

/-- The outcome of a GETS for a node without the line: a clean copy, and no dirty copy above is
lost. -/
def Fetched (fs : List Frame) (node : Node) (res : Option (List Frame × Node)) : Prop :=
  ∃ fs' st, res = some (fs', node.setState st) ∧ (st = S ∨ st = E) ∧ Above fs' st ∧
    (AboveM fs' ↔ AboveM fs) ∧ TakenOver fs fs'

/-- The outcome of a GETX. -/
def Obtained (fs : List Frame) (node : Node) (res : Option (List Frame × Node)) : Prop :=
  ∃ fs', res = some (fs', node.setState M) ∧ Above fs' M ∧ TakenOver fs fs'

/-- The next level above is in state `M`. -/
def NextM (fs : List Frame) : Prop := ∃ f ∈ fs.head?, f.state = M

/-- The outcome of the eviction of a node with or without dirty data. -/
structure Evicted (fs : List Frame) (dirty : Prop) (fs' : List Frame)
    (request : Option AccessType) : Prop where
  above : Above fs' I
  putx : request = some .PUTX ↔ dirty
  written : dirty → fs = [] ∨ NextM fs'
  kept : ¬dirty → (AboveM fs' ↔ AboveM fs)

section

variable {s st : MESIState} {node child : Node} {f : Frame} {fs fs' : List Frame}
  {lb rb : List Bool} {b : Bool} {up : Node → Option (List Frame × Node)}

theorem Node.setState_self (h : node.state = s) : node.setState s = node := by
  subst h
  cases node <;> rfl

theorem Frame.plug_eq (f : Frame) (child : Node) :
    f.plug child = .cache f.state f.entry (f.left ++ child :: f.right) := rfl

/-- A cache with a dirty copy beside the child may write the line. -/
theorem Frame.Fits.dirty_sibling (h : f.Fits lb rb b st)
    (hd : ∃ c ∈ f.left ++ f.right, Mesi.HoldsM c) : f.state = M ∨ f.state = E := by
  have hcoh : Coherent (f.plug (.terminal st)) := coherent_plug.mpr ⟨⟨lb, rb, b, h⟩, .terminal st⟩
  have hm : Mesi.HoldsM (f.plug (.terminal st)) := holdsM_plug.mpr (.inl (.inr hd))
  by_contra hne
  refine hcoh.clean ?_ hm
  have hstate : (f.plug (.terminal st)).state = f.state := rfl
  rw [hstate]
  cases hs : f.state <;> simp_all

/-- The result of `processAccess` on a frame, once both controllers are done. -/
theorem access_cons {type : AccessType} {flags : Flags} {fs1 : List Frame} {s1 s2 : MESIState}
    {e' : Entry} {left' right' : List Node} {child' : Node} {wb : Bool}
    (hvalid : (type = .PUTS ∨ type = .PUTX) → f.state ≠ I)
    (hbcc : bccProcessAccess type fs (f.plug child) (access type flags fs) =
      some (fs1, (f.plug child).setState s1))
    (htcc : tccProcessAccess type flags f.left.length (isExclusive s1) f.entry
      (f.left ++ child :: f.right) = some (e', left' ++ child' :: right', wb))
    (hlen : left'.length = f.left.length)
    (hwb : (if wb then processWritebackOnAccess s1 else some s1) = some s2) :
    access type flags (f :: fs) child = some (⟨s2, e', left', right'⟩ :: fs1, child') := by
  have hv : ¬((type = .PUTS ∨ type = .PUTX) ∧ (f.plug child).state = I) := fun h => hvalid h.1 h.2
  have hunplug := Frame.unplug_plug ⟨s2, e', left', right'⟩ child'
  rw [hlen] at hunplug
  have hnode : (f.plug child).setState s1 = .cache s1 f.entry (f.left ++ child :: f.right) := rfl
  rw [access, processAccess, if_neg hv, hbcc, hnode, Option.bind_some]
  simp only [htcc, Option.bind_some]
  cases wb with
  | false =>
    obtain rfl : s1 = s2 := by simpa using hwb
    simpa [Frame.plug_eq] using hunplug
  | true =>
    simp only [if_true] at hwb
    simpa [hwb, Frame.plug_eq] using hunplug

/-- There is nothing to take over above a cache that has the line. -/
theorem Above.takenOver (h : Above fs st) (hst : st ≠ I) : TakenOver fs fs :=
  forall₂_same.mpr fun f hf hd => absurd hd (h.clean hst f hf)

theorem bccProcessAccess_gets (habove : Above fs node.state)
    (hup : node.state = I → Fetched fs node (up node)) : ∃ fs' s,
    bccProcessAccess .GETS fs node up = some (fs', node.setState s) ∧ s ≠ I ∧ Above fs' s ∧
      (AboveM fs' ↔ AboveM fs) ∧ TakenOver fs fs' ∧
      (node.state = I ∧ (s = S ∨ s = E) ∨ s = node.state) := by
  rw [bccProcessAccess]
  by_cases hI : node.state = I
  · obtain ⟨fs', st, h, hst, ha, hm, ht⟩ := hup hI
    refine ⟨fs', st, ?_, ?_, ha, hm, ht, .inl ⟨hI, hst⟩⟩
    · simp [hI, h, hst]
    · rcases hst with rfl | rfl <;> simp
  · exact ⟨fs, node.state, by rw [if_neg hI, Node.setState_self rfl], hI, habove, Iff.rfl,
      habove.takenOver hI, .inr rfl⟩

theorem bccProcessAccess_getx (habove : Above fs node.state)
    (hup : node.state = I ∨ node.state = S → Obtained fs node (up node)) :
    Obtained fs node (bccProcessAccess .GETX fs node up) := by
  rw [bccProcessAccess]
  by_cases hIS : node.state = I ∨ node.state = S
  · obtain ⟨fs', h, ha, ht⟩ := hup hIS
    exact ⟨fs', by simp [hIS, h], ha, ht⟩
  · rw [not_or] at hIS
    have ht : TakenOver fs fs := habove.takenOver hIS.1
    by_cases hE : node.state = E
    · exact ⟨fs, by simp [hE], (hE ▸ habove).dirtied, ht⟩
    · have hM : node.state = M := by cases hs : node.state <;> simp_all
      exact ⟨fs, by simp [hM, Node.setState_self hM], hM ▸ habove, ht⟩

/-- A GETS for a node without the line. -/
theorem access_gets (flags : Flags) : ∀ {fs : List Frame} {child : Node}, child.state = I →
    Above fs I → Fetched fs child (access .GETS flags fs child)
  | [], child, _, _ => by
    refine ⟨[], memoryAccess .GETS flags, rfl, ?_, trivial, Iff.rfl, .nil⟩
    cases h : flags.noExcl <;> simp [memoryAccess, h]
  | f :: fs, child, hchild, ⟨⟨lb, rb, b, hf⟩, habove⟩ => by
    obtain ⟨fs1, s1, hbcc, hs1, ha1, hm1, ht1, hcase⟩ := bccProcessAccess_gets
      (show Above fs (f.plug child).state from habove) fun hI => access_gets flags hI (hI ▸ habove)
    have hraise : Frame.Fits { f with state := s1 } lb rb b I := by
      rcases hcase with ⟨hI, -⟩ | rfl
      · exact hf.raise (fun h => absurd hI h) (fun h => by
          have hI : f.state = I := hI
          rw [hI] at h
          simp at h)
      · exact hf
    obtain ⟨e', left', right', lb', rb', wb, st, htcc, hlen, hst, hfits, hwb⟩ :=
      tccProcessAccess_gets hraise hs1 child flags
    have hstI : st ≠ I := by rcases hst with rfl | rfl <;> simp
    have hM : s1 = M ↔ f.state = M := by
      rcases hcase with ⟨hI, rfl | rfl⟩ | rfl
      · simp [show f.state = I from hI]
      · simp [show f.state = I from hI]
      · rfl
    have hclean := hfits.clean hstI
    have hframe : ∀ s2, (s2 = M ↔ wb = true ∨ s1 = M) →
        (AboveM (⟨s2, e', left', right'⟩ :: fs1) ↔ AboveM (f :: fs)) := by
      intro s2 hs2
      have hnot : ¬∃ c ∈ left' ++ right', HoldsM c := fun ⟨c, hc, h⟩ => hclean c hc h
      rw [aboveM_cons, aboveM_cons, hm1, Frame.HoldsM, Frame.HoldsM, or_iff_left hnot, hs2, hwb, hM]
      exact or_congr or_comm Iff.rfl
    cases hb : wb with
    | false =>
      refine ⟨_, st, access_cons (by simp) hbcc htcc hlen (by simp [hb]), hst,
        ⟨⟨lb', rb', true, hfits⟩, ha1⟩, hframe s1 (by simp [hb]), .cons (fun hd => ?_) ht1⟩
      exact Bool.noConfusion (hb.symm.trans (hwb.mpr hd))
    | true =>
      -- The copy that the owner gave up was dirty.
      have hx : s1 = M ∨ s1 = E := hraise.dirty_sibling (hwb.mp hb)
      have ha2 : Above fs1 M := by
        rcases hx with rfl | rfl
        · exact ha1
        · exact ha1.dirtied
      have hdirty : (if wb then processWritebackOnAccess s1 else some s1) = some M := by
        simp [hb, processWritebackOnAccess, hx]
      refine ⟨_, st, access_cons (by simp) hbcc htcc hlen hdirty, hst,
        ⟨⟨lb', rb', true, hfits.raise (by simp) (by simp)⟩, ha2⟩, hframe M (by simp [hb]),
        .cons (fun _ => rfl) ht1⟩

/-- A GETX for a node without the line, or with a copy that it shares. -/
theorem access_getx (flags : Flags) : ∀ {fs : List Frame} {child : Node},
    child.state = I ∨ child.state = S → Above fs child.state →
    Obtained fs child (access .GETX flags fs child)
  | [], child, _, _ => ⟨[], rfl, trivial, .nil⟩
  | f :: fs, child, hchild, ⟨⟨lb, rb, b, hf⟩, habove⟩ => by
    obtain ⟨fs1, hbcc, ha1, ht1⟩ := bccProcessAccess_getx
      (show Above fs (f.plug child).state from habove) fun hIS => access_getx flags hIS habove
    have hraise : Frame.Fits { f with state := M } lb rb b child.state :=
      hf.raise (by simp) (by simp)
    obtain ⟨e', left', right', lb', rb', wb, htcc, hlen, hfits⟩ :=
      tccProcessAccess_getx hraise hchild rfl child flags
    have hM : (if wb then processWritebackOnAccess M else some M) = some M := by
      cases wb <;> simp [processWritebackOnAccess]
    exact ⟨_, access_cons (by simp) hbcc htcc hlen hM, ⟨⟨lb', rb', true, hfits⟩, ha1⟩,
      .cons (fun _ => rfl) ht1⟩

/-- A PUTS of a clean copy. -/
theorem access_puts (hst : child.state = S ∨ child.state = E) (h : Above fs child.state) :
    ∃ fs', access .PUTS ⟨false, false⟩ fs child = some (fs', child.setState I) ∧ Above fs' I ∧
      (AboveM fs' ↔ AboveM fs) := by
  cases fs with
  | nil => exact ⟨[], rfl, trivial, Iff.rfl⟩
  | cons f fs =>
    obtain ⟨⟨lb, rb, b, hf⟩, habove⟩ := h
    have hstI : child.state ≠ I := by rcases hst with h | h <;> simp [h]
    have hI : f.state ≠ I := (hf.bit hstI ▸ hf.hole).not_invalid
    obtain ⟨e', htcc, hfits⟩ := tccProcessAccess_put hf hstI (.inl rfl) (isExclusive f.state) child
    refine ⟨_, access_cons (fun _ => hI) ?_ htcc rfl rfl, ⟨⟨lb, rb, false, hfits⟩, habove⟩, ?_⟩
    · have hself : (f.plug child).setState f.state = f.plug child := Node.setState_self rfl
      rw [bccProcessAccess, hself]
      exact if_pos hI
    · simp only [aboveM_cons, Frame.HoldsM]

/-- A PUTX of a dirty copy makes the next level dirty. -/
theorem access_putx (child : Node) (h : Above fs M) : ∃ fs',
    access .PUTX ⟨false, false⟩ fs child = some (fs', child.setState I) ∧ Above fs' I ∧
      (fs = [] ∨ NextM fs') := by
  cases fs with
  | nil => exact ⟨[], rfl, trivial, .inl rfl⟩
  | cons f fs =>
    obtain ⟨⟨lb, rb, b, hf⟩, habove⟩ := h
    have hx : f.state = M ∨ f.state = E := hf.hole.own_exclusive (.inl rfl)
    have hraise : Frame.Fits { f with state := M } lb rb b M := hf.raise (by simp) (by simp)
    obtain ⟨e', htcc, hfits⟩ :=
      tccProcessAccess_put hraise (by simp) (.inr ⟨rfl, rfl⟩) (isExclusive M) child
    have ha : Above fs M := by
      rcases hx with hx | hx
      · exact hx ▸ habove
      · exact (hx ▸ habove).dirtied
    refine ⟨_, access_cons (fun _ => ?_) ?_ htcc rfl rfl, ⟨⟨lb, rb, false, hfits⟩, ha⟩,
      .inr ⟨_, rfl, rfl⟩⟩
    · rcases hx with hx | hx <;> simp [hx]
    · have hstate : (f.plug child).state = f.state := rfl
      rw [bccProcessAccess, hstate]
      rcases hx with hx | hx
      · rw [if_pos hx, Node.setState_self (hstate.trans hx)]
      · rw [if_neg (by simp [hx]), if_pos hx]

theorem bccProcessEviction_spec (habove : Above fs node.state) (wb : Bool)
    (hwb : wb = true → node.state = M ∨ node.state = E) : ∃ fs' request,
    bccProcessEviction wb fs node = some (fs', node.setState I, request) ∧
      Evicted fs (wb = true ∨ node.state = M) fs' request := by
  by_cases hd : wb = true ∨ node.state = M
  · -- The PUTX leaves from state `M`.
    have hx : node.state = M ∨ node.state = E := hd.elim hwb .inl
    have ha : Above fs M := by
      rcases hx with hx | hx
      · exact hx ▸ habove
      · exact (hx ▸ habove).dirtied
    have hdirtied : (if wb = true then
        if node.state = M ∨ node.state = E then some (node.setState M) else none
        else some node) = some (node.setState M) := by
      cases wb with
      | true => simp [hx]
      | false => simp [Node.setState_self (hd.resolve_left (by simp))]
    obtain ⟨fs', hput, ha', hnext⟩ := access_putx (node.setState M) ha
    refine ⟨fs', some .PUTX, ?_, ha', by simp [hd], fun _ => hnext, fun h => absurd hd h⟩
    rw [bccProcessEviction, hdirtied]
    simp [hput]
  · rw [not_or] at hd
    obtain rfl : wb = false := by simpa using hd.1
    cases hs : node.state with
    | I =>
      refine ⟨fs, none, ?_, hs ▸ habove, by simp, by simp, fun _ => Iff.rfl⟩
      simp [bccProcessEviction, hs, Node.setState_self hs]
    | M => exact absurd hs hd.2
    | _ =>
      have hclean : node.state = S ∨ node.state = E := by simp [hs]
      obtain ⟨fs', hput, ha', hm⟩ := access_puts hclean habove
      refine ⟨fs', some .PUTS, ?_, ha', by simp, by simp, fun _ => hm⟩
      simp [bccProcessEviction, hs, hput]

/-- An eviction succeeds, and sends a PUTX exactly when the subtree has dirty data. -/
theorem processEviction_spec (hc : Coherent node) (habove : Above fs node.state) :
    ∃ fs' node' request, processEviction fs node = some (fs', node', request) ∧
      Coherent node' ∧ node'.state = I ∧ Evicted fs (HoldsM node) fs' request := by
  cases hc with
  | terminal s =>
    obtain ⟨fs', request, h, hev⟩ := bccProcessEviction_spec habove false (by simp)
    refine ⟨fs', _, request, h, .terminal I, rfl, ?_⟩
    have hd : (false = true ∨ Node.state (.terminal s) = M) ↔ HoldsM (.terminal s) := by
      rw [holdsM_terminal]
      simp [Node.state]
    rwa [hd] at hev
  | @cache s e cs hcount hall hcs =>
    obtain ⟨e', cs', wb, htop, hcoh, hwb⟩ :=
      tccSendInvalidates_all hcount hall hcs (fun c hc => (hcs c hc).invalidates.1) false
    have hwb : wb = true ↔ ∃ c ∈ cs, HoldsM c := by simpa using hwb
    have hx : wb = true → s = M ∨ s = E := by
      intro h
      by_contra hne
      refine (Coherent.cache hcount hall hcs).clean ?_ (holdsM_cache.mpr (.inr (hwb.mp h)))
      have hstate : (Node.cache s e cs).state = s := rfl
      rw [hstate]
      cases s <;> simp_all
    obtain ⟨fs', request, h, hev⟩ :=
      bccProcessEviction_spec (show Above fs (Node.cache s e' cs').state from habove) wb hx
    refine ⟨fs', _, request, ?_, hcoh I, rfl, ?_⟩
    · rw [processEviction, htop]
      exact h
    · have hd : (wb = true ∨ Node.state (.cache s e' cs') = M) ↔ HoldsM (.cache s e cs) := by
        rw [holdsM_cache, hwb, or_comm, Node.state]
      rwa [hd] at hev

end

end Doppelganger.Mesi

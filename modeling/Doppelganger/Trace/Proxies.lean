import Doppelganger.Mesi.Runs
import Doppelganger.Trace.TraceDriver

/-! A line at the parent of the trace driver.  While it is coherent, the proxies answer
invalidations as terminal caches do.  What the parent does is then what it does above terminal
caches, and the lemmas about these apply: a request that suits the state of the line, an eviction
and an invalidation pass their assertions and leave the line coherent. -/

namespace Doppelganger.Trace

open Mesi MESIState List

section

variable {type : InvType} {e : Entry} {cs : List MESIState} {bs : List Bool} {s : MESIState}
  {line : ParentLine} {childId numChildren : Nat}

/-! ### Proxies as terminal caches -/

/-- The sharers have the line in a state that the invalidation is for, and when one of them has it
in `M` there is no other. -/
structure Deliverable (type : InvType) (bs : List Bool) (cs : List MESIState) : Prop where
  ready : ∀ (i : Nat) s, cs[i]? = some s → bs[i]? = some true → accepts type s = true
  lone : bs.count true ≤ 1 ∨ ∀ s ∈ cs, s ≠ M

theorem Deliverable.tail {b : Bool} (h : Deliverable type (b :: bs) (s :: cs)) :
    Deliverable type bs cs := by
  refine ⟨fun i t hs hb => h.ready (i + 1) t hs hb, ?_⟩
  apply h.lone.imp
  · intro hle
    rw [count_cons] at hle
    omega
  · exact fun hall t ht => hall t (mem_cons_of_mem s ht)

/-- On a line that it may get, the driver's answer to the first invalidation is that of a terminal
cache. -/
theorem invalidate_eq (htype : type ≠ .FWD) (h : accepts type s = true) :
    bccProcessInval type s false = invalidate type s := by
  cases type <;> cases s <;> simp_all [bccProcessInval, invalidate, accepts]

theorem invProxies_eq (htype : type ≠ .FWD) {wb : Bool} (h : Deliverable type bs cs)
    (hwb : wb = true → bs.count true = 0) :
    invChildren type bs (cs.map .terminal) wb =
      (invProxies type bs cs wb).map fun (bs, cs, n, wb) => (bs, cs.map .terminal, n, wb) := by
  induction cs generalizing bs wb with
  | nil => cases bs <;> simp [invChildren, invProxies]
  | cons s cs ih =>
    cases bs with
    | nil => simp [invChildren, invProxies]
    | cons b bs =>
      rw [map_cons]
      cases b with
      | false =>
        rw [invChildren, invProxies, ih h.tail (by simpa using hwb)]
        cases invProxies type bs cs wb <;> simp
      | true =>
        have hfirst : wb = false := by
          rw [← Bool.not_eq_true]
          intro hwb'
          simpa using hwb hwb'
        rw [invChildren, invProxies, processInv, hfirst, invalidate_eq htype (h.ready 0 s rfl rfl)]
        cases hs : invalidate type s with
        | none => rfl
        | some got =>
          -- After a writeback no sharer is left.
          have hnext : got.2 = true → bs.count true = 0 := by
            intro hM
            simp only [invalidate, Option.ite_none_left_eq_some] at hs
            obtain ⟨-, heq⟩ := hs
            cases heq
            rcases h.lone with hle | hall
            · rw [count_cons_self] at hle
              omega
            · exact absurd (by simpa using hM) (hall s mem_cons_self)
          simp only [Option.map_some, Option.bind_some]
          rw [ih h.tail hnext]
          cases invProxies type bs cs got.2 <;> simp

theorem sendInvalidates_eq (htype : type ≠ .FWD)
    (h : type = .INV ∨ e.isExclusive = true → Deliverable type e.sharers cs) :
    tccSendInvalidates type e (cs.map .terminal) false =
      (sendInvalidates type e cs false).map fun (e, cs, wb) => (e, cs.map .terminal, wb) := by
  rw [tccSendInvalidates, Mesi.sendInvalidates, sendInvalidates]
  by_cases hskip : type = .INVX ∧ e.isExclusive = false
  · rw [if_pos hskip, if_pos hskip]
    rfl
  · rw [if_neg hskip, if_neg hskip]
    have hsend : Deliverable type e.sharers cs := by
      apply h
      cases type <;> simp_all
    by_cases hempty : e.isEmpty = true
    · rw [if_pos hempty, if_pos hempty]
      rfl
    · rw [if_neg hempty, if_neg hempty, invProxies_eq htype hsend (by simp)]
      cases invProxies type e.sharers cs false with
      | none => rfl
      | some sent =>
        simp only [Option.map_some, Option.bind_some]
        split
        · split
          · rfl
          · split <;> rfl
        · rfl

/-! ### The parent of coherent proxies -/

/-- The line is coherent, with a `cStore` for each child. -/
structure ParentLine.Inv (numChildren : Nat) (line : ParentLine) : Prop where
  coherent : Coherent line.node
  above : Above line.ancestors line.state
  length : line.cStore.length = numChildren

theorem agrees_at (h : Forall₂ (Agrees s e) bs cs) {i : Nat} {t : MESIState}
    (ht : cs[i]? = some t) : ∃ b, bs[i]? = some b ∧ Agrees s e b t := by
  obtain ⟨hi, rfl⟩ := List.getElem?_eq_some_iff.mp ht
  have hi' : i < bs.length := h.length_eq ▸ hi
  exact ⟨bs[i], getElem?_eq_getElem hi', h.get hi' hi⟩

/-- Proxies under a directory that agrees with them can get an INV, and one that has the line
exclusively an INVX. -/
theorem deliverable (hc : e.Counted)
    (hall : Forall₂ (Agrees s e) e.sharers cs)
    (htype : type = .INV ∨ type = .INVX ∧ e.isExclusive = true) :
    Deliverable type e.sharers cs := by
  constructor
  · intro i t ht hb
    obtain ⟨b, hb', hagrees⟩ := agrees_at hall ht
    obtain rfl : true = b := Option.some.inj (hb.symm.trans hb')
    rcases htype with rfl | ⟨rfl, he⟩
    · cases t
      · exact absurd hagrees.of_invalid (by simp)
      all_goals rfl
    · rcases (hagrees.owner he).1 with rfl | rfl <;> rfl
  · by_cases he : e.isExclusive = true
    · have hone : e.numSharers = 1 ∧ e.exclusive = true := by simpa [Entry.isExclusive] using he
      left
      rw [← hc.count]
      omega
    · right
      rintro t ht rfl
      obtain ⟨i, hi⟩ := mem_iff_getElem?.mp ht
      obtain ⟨b, -, hagrees⟩ := agrees_at hall hi
      exact he (hagrees.exclusive.mp (.inl rfl)).1

/-- The sharer bit of the requester itself goes first. -/
theorem Deliverable.clear (h : Deliverable type bs cs) (c : Nat) :
    Deliverable type (bs.set c false) cs := by
  constructor
  · intro i t ht hb
    apply h.ready i t ht
    rw [getElem?_set] at hb
    split at hb
    · split at hb <;> simp at hb
    · exact hb
  · apply h.lone.imp_left
    intro hle
    by_cases hc : c < bs.length
    · rw [count_set hc]
      simp only [Bool.false_beq, Bool.not_true, Bool.false_eq_true, if_false]
      omega
    · rw [set_eq_of_length_le (by omega)]
      exact hle

/-- What follows the invalidations of a GETX. -/
theorem granted_eq (childId : Nat) (sent : Option (Entry × List MESIState × Bool)) :
    (sent.map fun (e, cs, wb) => (e, cs.map Node.terminal, wb)).bind (fun (e, cs, wb) =>
      if e.numSharers + 1 = 1 then
        some ((⟨e.numSharers + 1, e.sharers.set childId true, true⟩ : Entry),
          cs.modify childId (Node.setState M), wb)
      else none) =
    (sent.bind fun (e, cs, wb) =>
      if e.numSharers + 1 = 1 then
        some ((⟨e.numSharers + 1, e.sharers.set childId true, true⟩ : Entry), cs, M, wb)
      else none).map fun (e, cs, childState, wb) =>
        (e, (cs.map Node.terminal).modify childId (Node.setState childState), wb) := by
  cases sent with
  | none => rfl
  | some sent =>
    simp only [Option.map_some, Option.bind_some]
    split <;> rfl

/-- On the directory of coherent proxies the two models of `MESITopCC::processAccess` agree. -/
theorem tccProcessAccess_eq (hc : e.Counted)
    (hall : Forall₂ (Agrees s e) e.sharers cs)
    (type : AccessType) (childId : Nat) (haveExclusive : Bool) :
    Mesi.tccProcessAccess type noFlags childId haveExclusive e (cs.map .terminal) =
      (tccProcessAccess type childId haveExclusive e cs).map fun (e, cs, childState, wb) =>
        (e, (cs.map .terminal).modify childId (Node.setState childState), wb) := by
  have hinvx := @sendInvalidates_eq .INVX e cs (by simp) fun h =>
    deliverable hc hall (.inr ⟨rfl, h.resolve_left (by simp)⟩)
  cases type with
  | PUTS =>
    simp only [Mesi.tccProcessAccess, tccProcessAccess]
    split <;> rfl
  | PUTX =>
    simp only [Mesi.tccProcessAccess, tccProcessAccess, noFlags, Bool.false_eq_true, if_false]
    split
    · split <;> rfl
    · rfl
  | GETS =>
    simp only [Mesi.tccProcessAccess, tccProcessAccess, noFlags, and_true]
    split
    · rfl
    · split
      · rfl
      · split
        · rw [hinvx]
          cases sendInvalidates .INVX e cs false with
          | none => rfl
          | some sent =>
            simp only [Option.map_some, Option.bind_some]
            split <;> rfl
        · simp only [Option.bind_some]
          split <;> rfl
  | GETX =>
    simp only [Mesi.tccProcessAccess, tccProcessAccess]
    split
    · have hinv : Deliverable .INV e.sharers cs := deliverable hc hall (.inl rfl)
      split
      · split
        · rfl
        · rw [Option.bind_some, sendInvalidates_eq (by simp) fun _ => hinv.clear childId]
          exact granted_eq childId _
      · rw [Option.bind_some, sendInvalidates_eq (by simp) fun _ => hinv]
        exact granted_eq childId _
    · rfl

/-! ### Lengths -/

theorem invProxies_length {wb : Bool} {sent : List Bool × List MESIState × Nat × Bool}
    (h : invProxies type bs cs wb = some sent) : sent.2.1.length = cs.length := by
  induction cs generalizing bs wb sent with
  | nil =>
    rw [invProxies] at h
    cases h
    rfl
  | cons s cs ih =>
    rcases bs with _ | ⟨_ | _, bs⟩
    · rw [invProxies] at h
      cases h
      rfl
    · rw [invProxies] at h
      obtain ⟨rest, hrest, rfl⟩ := Option.map_eq_some_iff.mp h
      rw [length_cons, length_cons, ih hrest]
    · rw [invProxies] at h
      obtain ⟨got, -, h⟩ := Option.bind_eq_some_iff.mp h
      obtain ⟨rest, hrest, rfl⟩ := Option.map_eq_some_iff.mp h
      rw [length_cons, length_cons, ih hrest]

theorem sendInvalidates_length {wb : Bool} {sent : Entry × List MESIState × Bool}
    (h : sendInvalidates type e cs wb = some sent) : sent.2.1.length = cs.length := by
  unfold sendInvalidates at h
  split at h
  · cases h
    rfl
  · split at h
    · cases h
      rfl
    · obtain ⟨⟨sharers, cs', sentInvs, wb'⟩, hrest, h⟩ := Option.bind_eq_some_iff.mp h
      obtain ⟨-, h⟩ := Option.ite_none_right_eq_some.mp h
      rw [← invProxies_length hrest]
      split at h
      · cases h
        rfl
      · obtain ⟨-, h⟩ := Option.ite_none_right_eq_some.mp h
        cases h
        rfl

theorem tccProcessAccess_length {type : AccessType} {haveExclusive : Bool}
    {res : Entry × List MESIState × MESIState × Bool}
    (h : tccProcessAccess type childId haveExclusive e cs = some res) :
    res.2.1.length = cs.length := by
  unfold tccProcessAccess at h
  cases type with
  | PUTS =>
    obtain ⟨-, h⟩ := Option.ite_none_right_eq_some.mp h
    cases h
    rfl
  | PUTX =>
    obtain ⟨-, h⟩ := Option.ite_none_right_eq_some.mp h
    obtain ⟨-, h⟩ := Option.ite_none_right_eq_some.mp h
    cases h
    rfl
  | GETS =>
    simp only at h
    split at h
    · cases h
      rfl
    · obtain ⟨-, h⟩ := Option.ite_none_left_eq_some.mp h
      obtain ⟨sent, hsent, h⟩ := Option.bind_eq_some_iff.mp h
      obtain ⟨-, h⟩ := Option.ite_none_left_eq_some.mp h
      cases h
      split at hsent
      · exact sendInvalidates_length hsent
      · cases hsent
        rfl
  | GETX =>
    obtain ⟨-, h⟩ := Option.ite_none_right_eq_some.mp h
    obtain ⟨e1, -, h⟩ := Option.bind_eq_some_iff.mp h
    obtain ⟨sent, hsent, h⟩ := Option.bind_eq_some_iff.mp h
    obtain ⟨-, h⟩ := Option.ite_none_right_eq_some.mp h
    cases h
    exact sendInvalidates_length hsent

theorem ParentLine.access_length {type : AccessType} {line' : ParentLine} {state : MESIState}
    (h : line.access type childId = some (line', state)) :
    line'.cStore.length = line.cStore.length := by
  obtain ⟨-, h⟩ := Option.ite_none_left_eq_some.mp h
  obtain ⟨⟨fs, node'⟩, -, h⟩ := Option.bind_eq_some_iff.mp h
  obtain ⟨⟨e', cs', childState, wb⟩, htcc, h⟩ := Option.bind_eq_some_iff.mp h
  have hlength := tccProcessAccess_length htcc
  simp only at h
  split at h
  · obtain ⟨s, -, heq⟩ := Option.map_eq_some_iff.mp h
    cases heq
    exact hlength
  · cases h
    exact hlength

/-! ### Requests -/

/-- The parent without one of its proxies. -/
def ParentLine.frame (childId : Nat) (line : ParentLine) : Frame :=
  ⟨line.state, line.entry, (line.cStore.take childId).map .terminal,
    (line.cStore.drop (childId + 1)).map .terminal⟩

theorem ParentLine.length_left (hlt : childId < line.cStore.length) :
    (line.frame childId).left.length = childId := by
  simp only [frame, length_map, length_take]
  omega

theorem ParentLine.children_frame (hlt : childId < line.cStore.length) :
    line.cStore.map Node.terminal = (line.frame childId).left ++
      .terminal line.cStore[childId] :: (line.frame childId).right := by
  rw [frame, ← map_cons (f := Node.terminal), ← map_append]
  simp

theorem ParentLine.plug_frame (hs : line.cStore[childId]? = some s) :
    (line.frame childId).plug (.terminal s) = line.node := by
  obtain ⟨hlt, rfl⟩ := List.getElem?_eq_some_iff.mp hs
  rw [node, children_frame hlt]
  rfl

theorem ParentLine.modify_frame (hlt : childId < line.cStore.length) (s : MESIState) :
    Node.cache line.state line.entry
      ((line.cStore.map .terminal).modify childId (Node.setState s)) =
      (line.frame childId).plug (.terminal s) := by
  have hmodify := modify_hole (line.frame childId).left (line.frame childId).right
    (.terminal line.cStore[childId]) (Node.setState s)
  rw [length_left hlt] at hmodify
  rw [children_frame hlt, hmodify]
  rfl

/-- The bottom controller changes nothing but the state. -/
theorem bccProcessAccess_setState {fs fs' : List Frame} {node node' : Node} {type : AccessType}
    (habove : Above fs node.state)
    (h : bccProcessAccess type fs node (Mesi.access type noFlags fs) = some (fs', node')) :
    node' = node.setState node'.state := by
  have hset : ∀ s, node' = node.setState s → node' = node.setState node'.state := by
    rintro s rfl
    rw [Node.state_setState]
  cases type with
  | PUTS =>
    obtain ⟨-, h⟩ := Option.ite_none_right_eq_some.mp h
    cases h
    exact (Node.setState_self rfl).symm
  | PUTX =>
    simp only [bccProcessAccess] at h
    split at h
    · cases h
      exact (Node.setState_self rfl).symm
    · obtain ⟨-, h⟩ := Option.ite_none_right_eq_some.mp h
      cases h
      exact hset M rfl
  | GETS =>
    obtain ⟨fs1, s, hbcc, -⟩ := bccProcessAccess_gets habove
      fun hI => access_gets noFlags hI (hI ▸ habove)
    cases hbcc.symm.trans h
    exact hset s rfl
  | GETX =>
    obtain ⟨fs1, hbcc, -⟩ := bccProcessAccess_getx habove fun hIS => access_getx noFlags hIS habove
    cases hbcc.symm.trans h
    exact hset M rfl

/-- The request of a proxy is that of a terminal cache in its place. -/
theorem ParentLine.access_eq (h : line.Inv numChildren) (hs : line.cStore[childId]? = some s)
    (type : AccessType) :
    Mesi.access type noFlags (line.frame childId :: line.ancestors) (.terminal s) =
      (line.access type childId).map fun (line, childState) =>
        (line.frame childId :: line.ancestors, .terminal childState) := by
  obtain ⟨hlt, -⟩ := List.getElem?_eq_some_iff.mp hs
  obtain ⟨hc, hall, -⟩ := coherent_cache.mp h.coherent
  rw [forall₂_map_right_iff] at hall
  have hstate : line.node.state = line.state := rfl
  rw [Mesi.access, length_left hlt, plug_frame hs, processAccess, ParentLine.access, hstate]
  by_cases hput : (type = .PUTS ∨ type = .PUTX) ∧ line.state = I
  · rw [if_pos hput, if_pos hput]
    rfl
  · rw [if_neg hput, if_neg hput]
    cases hbcc : bccProcessAccess type line.ancestors line.node
      (Mesi.access type noFlags line.ancestors) with
    | none => rfl
    | some got =>
      obtain ⟨fs, node'⟩ := got
      obtain ⟨s', rfl⟩ : ∃ s', node' = .cache s' line.entry (line.cStore.map .terminal) :=
        ⟨node'.state, bccProcessAccess_setState h.above hbcc⟩
      simp only [Option.bind_some, Node.state]
      rw [tccProcessAccess_eq hc hall]
      cases htcc : tccProcessAccess type childId (isExclusive s') line.entry line.cStore with
      | none => rfl
      | some res =>
        obtain ⟨e', cs', childState, wb⟩ := res
        have hlt' : childId < cs'.length := by
          rw [tccProcessAccess_length htcc]
          exact hlt
        have hunplug : ∀ s, Node.unplug childId (.cache s e'
            ((cs'.map .terminal).modify childId (Node.setState childState))) =
            some ((ParentLine.mk fs s e' cs').frame childId, .terminal childState) := by
          intro s
          have hplug := @Frame.unplug_plug ((ParentLine.mk fs s e' cs').frame childId)
            (.terminal childState)
          rw [length_left hlt', ← modify_frame hlt'] at hplug
          exact hplug
        simp only [Option.map_some, Option.bind_some]
        split
        · cases processWritebackOnAccess s' with
          | none => rfl
          | some s => rw [Option.map_some, Option.bind_some, hunplug]; rfl
        · rw [Option.bind_some, hunplug]
          rfl

/-- The state in `childState` goes to the `cStore` of the child. -/
def ParentLine.store (childId : Nat) (state : MESIState) (line : ParentLine) : ParentLine :=
  { line with cStore := line.cStore.set childId state }

/-- Some cache of the hierarchy has the line in state `M`. -/
def ParentLine.Dirty (line : ParentLine) : Prop := HoldsM (plugAll line.ancestors line.node)

theorem ParentLine.node_store (hlt : childId < line.cStore.length) (s : MESIState) :
    (line.store childId s).node = (line.frame childId).plug (.terminal s) := by
  rw [node, store, set_eq_take_append_cons_drop, if_pos hlt, map_append, map_cons]
  rfl

theorem ParentLine.dirty_store (hlt : childId < line.cStore.length) (s : MESIState) :
    (line.store childId s).Dirty ↔ AboveM (line.frame childId :: line.ancestors) ∨ s = M := by
  rw [Dirty, node_store hlt, ← holdsM_terminal, ← holdsM_plugAll]
  rfl

theorem ParentLine.store_self (hs : line.cStore[childId]? = some s) :
    line.store childId s = line := by
  obtain ⟨hlt, rfl⟩ := List.getElem?_eq_some_iff.mp hs
  simp [store]

/-- What the caches around a proxy say is what the line says. -/
theorem ParentLine.inv_store (hlt : childId < line.cStore.length)
    (hlength : line.cStore.length = numChildren) (s : MESIState) :
    (line.store childId s).Inv numChildren ↔ Above (line.frame childId :: line.ancestors) s := by
  have hcoherent : Coherent (line.store childId s).node ↔
      ∃ lb rb b, (line.frame childId).Fits lb rb b s := by
    rw [node_store hlt, coherent_plug]
    exact and_iff_left (.terminal s)
  constructor
  · exact fun h => ⟨hcoherent.mp h.coherent, h.above⟩
  · refine fun ⟨hfits, habove⟩ => ⟨hcoherent.mpr hfits, habove, ?_⟩
    rw [store, length_set]
    exact hlength

/-- The requests that suit the state of the line in the `cStore`. -/
def Suits : AccessType → MESIState → Prop
  | .GETS, s => s = I
  | .GETX, s => s = I ∨ s = S
  | .PUTS, s => s = S ∨ s = E
  | .PUTX, s => s = E ∨ s = M

/-- A request that suits passes the assertions of the controllers and leaves the line coherent;
dirty data stays in some cache. -/
theorem ParentLine.Inv.request (h : line.Inv numChildren) (hs : line.cStore[childId]? = some s)
    {type : AccessType} (hsuits : Suits type s) : ∃ line' state,
    line.access type childId = some (line', state) ∧ (line'.store childId state).Inv numChildren ∧
      (state = I ↔ type = .PUTS ∨ type = .PUTX) ∧
      (line.Dirty → (line'.store childId state).Dirty) := by
  obtain ⟨hlt, -⟩ := List.getElem?_eq_some_iff.mp hs
  have habove : Above (line.frame childId :: line.ancestors) s := by
    rw [← inv_store hlt h.length, store_self hs]
    exact h
  have hdirty : line.Dirty ↔ AboveM (line.frame childId :: line.ancestors) ∨ s = M := by
    rw [← dirty_store hlt, store_self hs]
  have hspec : ∃ fs' state, Mesi.access type noFlags (line.frame childId :: line.ancestors)
      (.terminal s) = some (fs', .terminal state) ∧ Above fs' state ∧
      (state = I ↔ type = .PUTS ∨ type = .PUTX) ∧ (line.Dirty → AboveM fs' ∨ state = M) := by
    rw [hdirty]
    cases type with
    | GETS =>
      obtain rfl : s = I := hsuits
      obtain ⟨fs', state, haccess, hstate, ha, hm, -⟩ := access_gets noFlags
        (show (Node.terminal I).state = I from rfl) habove
      refine ⟨fs', state, haccess, ha, ?_, fun hd => ?_⟩
      · rcases hstate with rfl | rfl <;> simp
      · exact .inl (hm.mpr (hd.resolve_right (by simp)))
    | GETX =>
      have hstate : (Node.terminal s).state = I ∨ (Node.terminal s).state = S := hsuits
      obtain ⟨fs', haccess, ha, -⟩ := access_getx noFlags hstate habove
      exact ⟨fs', M, haccess, ha, by simp, fun _ => .inr rfl⟩
    | PUTS =>
      have hstate : (Node.terminal s).state = S ∨ (Node.terminal s).state = E := hsuits
      obtain ⟨fs', haccess, ha, hm⟩ := access_puts hstate habove
      refine ⟨fs', I, haccess, ha, by simp, fun hd => ?_⟩
      have hclean : s ≠ M := by rcases hsuits with rfl | rfl <;> simp
      exact .inl (hm.mpr (hd.resolve_right hclean))
    | PUTX =>
      have habove' : Above (line.frame childId :: line.ancestors) M := by
        rcases hsuits with rfl | rfl
        · exact habove.dirtied
        · exact habove
      obtain ⟨fs', haccess, ha, hnext⟩ := access_putx (.terminal s) habove'
      refine ⟨fs', I, haccess, ha, by simp, fun _ => .inl ?_⟩
      exact NextM.aboveM (hnext.resolve_left (by simp))
  obtain ⟨fs', state, haccess, habove', hput, hkept⟩ := hspec
  rw [access_eq h hs, Option.map_eq_some_iff] at haccess
  obtain ⟨⟨line', state'⟩, haccess, heq⟩ := haccess
  cases heq
  have hlength := access_length haccess
  have hlt' : childId < line'.cStore.length := hlength ▸ hlt
  refine ⟨line', _, haccess, (inv_store hlt' (hlength.trans h.length) _).mpr habove', hput, ?_⟩
  exact fun hd => (dirty_store hlt' _).mpr (hkept hd)

/-! ### Evictions and invalidations -/

theorem bccProcessEviction_setState {fs fs' : List Frame} {node node' : Node} {wb : Bool}
    {request : Option AccessType} (habove : Above fs node.state)
    (h : bccProcessEviction wb fs node = some (fs', node', request)) :
    node' = node.setState node'.state := by
  have hwb : wb = true → node.state = M ∨ node.state = E := by
    rintro rfl
    by_contra hne
    simp [bccProcessEviction, hne] at h
  obtain ⟨fs1, request1, hspec, -⟩ := bccProcessEviction_spec habove wb hwb
  cases hspec.symm.trans h
  rw [Node.state_setState]

theorem ParentLine.Inv.deliverable (h : line.Inv numChildren) {type : InvType}
    (htype : type ≠ .FWD) : type = .INV ∨ line.entry.isExclusive = true →
      Deliverable type line.entry.sharers line.cStore := by
  obtain ⟨hc, hall, -⟩ := coherent_cache.mp h.coherent
  rw [forall₂_map_right_iff] at hall
  intro hor
  apply Trace.deliverable hc hall
  cases type with
  | INV => exact .inl rfl
  | INVX => exact .inr ⟨rfl, hor.resolve_left (by simp)⟩
  | FWD => exact absurd rfl htype

/-- The eviction of the line by the parent sends a PUTX up when some cache has it dirty. -/
theorem ParentLine.Inv.evict (h : line.Inv numChildren) : ∃ line' request,
    line.evict = some (line', request) ∧ line'.Inv numChildren ∧
      (request = some .PUTX ↔ HoldsM line.node) := by
  obtain ⟨fs', node', request, hevict, hcoherent, hI, hevicted⟩ :=
    processEviction_spec h.coherent h.above
  rw [node, processEviction, sendInvalidates_eq (by simp) (h.deliverable (by simp))] at hevict
  obtain ⟨⟨e', cs1, wb⟩, hsent, hevict⟩ := Option.bind_eq_some_iff.mp hevict
  obtain ⟨⟨e2, cs', wb2⟩, hsend, heq⟩ := Option.map_eq_some_iff.mp hsent
  cases heq
  simp only at hevict
  have habove : Above line.ancestors (Node.state (.cache line.state e' (cs'.map .terminal))) :=
    h.above
  have hnode := bccProcessEviction_setState habove hevict
  refine ⟨⟨fs', node'.state, e', cs'⟩, request, ?_, ⟨?_, ?_, ?_⟩, hevicted.putx⟩
  · simp only [ParentLine.evict, hsend, Option.bind_some, hevict, Option.map_some]
  · rw [hnode] at hcoherent
    exact hcoherent
  · rw [hI]
    exact hevicted.above
  · exact (sendInvalidates_length hsend).trans h.length

/-- An invalidation from above reports a writeback when some cache has the line dirty. -/
theorem ParentLine.Inv.processInv (h : line.Inv numChildren)
    (ha : accepts type line.state = true) : ∃ line' wb, line.processInv type = some (line', wb) ∧
      Coherent line'.node ∧ line'.state = after type ∧ line'.cStore.length = numChildren ∧
      (wb = true ↔ HoldsM line.node) := by
  obtain ⟨node', wb, hinv, hcoherent, hstate, hwb⟩ :=
    h.coherent.invalidate (show accepts type line.node.state = true from ha) false
  have htop : ∃ e' cs' wb' s', (if type = .FWD then some (line.entry, line.cStore, false)
      else Trace.sendInvalidates type line.entry line.cStore false) = some (e', cs', wb') ∧
      bccProcessInval type line.state wb' = some (s', wb) ∧
      node' = .cache s' e' (cs'.map .terminal) := by
    by_cases htype : type = .FWD
    · subst htype
      rw [node, Mesi.processInv, if_pos rfl, Option.bind_some, Option.map_eq_some_iff] at hinv
      obtain ⟨⟨s', wb'⟩, hbcc, heq⟩ := hinv
      cases heq
      exact ⟨line.entry, line.cStore, false, s', rfl, hbcc, rfl⟩
    · rw [node, processInv_cache htype, sendInvalidates_eq htype (h.deliverable htype)] at hinv
      obtain ⟨⟨e', cs1, wb1⟩, hsent, hinv⟩ := Option.bind_eq_some_iff.mp hinv
      obtain ⟨⟨e2, cs', wb2⟩, hsend, heq⟩ := Option.map_eq_some_iff.mp hsent
      cases heq
      obtain ⟨⟨s', wb'⟩, hbcc, heq⟩ := Option.map_eq_some_iff.mp hinv
      cases heq
      exact ⟨e', cs', wb1, s', by rw [if_neg htype, hsend], hbcc, rfl⟩
  obtain ⟨e', cs', wb', s', hsend, hbcc, rfl⟩ := htop
  refine ⟨{ line with state := s', entry := e', cStore := cs' }, wb, ?_, hcoherent, hstate, ?_,
    by simpa using hwb⟩
  · simp only [ParentLine.processInv, hsend, Option.bind_some, hbcc, Option.map_some]
  · rw [← h.length]
    split at hsend
    · cases hsend
      rfl
    · exact sendInvalidates_length hsend

/-- A stale `exclusive` flag in an empty entry means nothing. -/
theorem ParentLine.Inv.postinsert (h : line.Inv numChildren)
    (hempty : line.entry.isEmpty = true) (exclusive : Bool) :
    ParentLine.Inv numChildren
      { line with entry := { line.entry with exclusive := exclusive } } := by
  obtain ⟨hcount, hall, hcs⟩ := coherent_cache.mp h.coherent
  refine ⟨.cache ⟨hcount.count, fun hn => ?_⟩ (agrees_entry hall (.inr (hcount.empty hempty))) hcs,
    h.above, h.length⟩
  have hn : 1 < line.entry.numSharers := hn
  have hzero : line.entry.numSharers = 0 := by simpa [Entry.isEmpty] using hempty
  omega

end

end Doppelganger.Trace

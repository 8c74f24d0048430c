import Doppelganger.Trace.Proxies

/-! Replays keep the `cStore`s and the parent's directory in agreement as long as no PUT of the
trace meets a state that it does not fit, as a PUTX of a line that was downgraded to `S`, or a PUTS
of one that is still in `M`.  The PUTs that `playAllGets` adds always fit. -/

namespace Doppelganger.Trace

open Mesi MESIState

namespace TraceDriver

variable {d d' : TraceDriver} {acc : AccessRecord} {a : Address}

/-- Each line is coherent, and the lines in `M` left with a PUTX. -/
structure Inv (d : TraceDriver) : Prop where
  lines : ∀ a, (d.lines a).Inv d.numChildren
  puts : ∀ req ∈ d.requests, req.initialState = M → req.type = .PUTX

/-- What a replay keeps: the configuration, and dirty data in some cache. -/
structure Kept (d d' : TraceDriver) : Prop where
  numChildren : d'.numChildren = d.numChildren
  dirty : ∀ a, (d.lines a).Dirty → (d'.lines a).Dirty

theorem init_inv {numChildren : Nat} {playPuts playAllGets : Bool}
    {ancestors : Address → List Frame} (habove : ∀ a, Above (ancestors a) I) :
    (init numChildren playPuts playAllGets ancestors).Inv := by
  refine ⟨fun a => ⟨?_, habove a, List.length_replicate⟩, by simp [init]⟩
  have hall : ∀ c ∈ (List.replicate numChildren I).map Node.terminal, Fresh c := by
    intro c hc
    rw [List.map_replicate, List.mem_replicate] at hc
    rw [hc.2]
    exact .terminal
  have hfresh := (Fresh.cache hall).coherent.1
  rw [List.length_map, List.length_replicate] at hfresh
  exact hfresh

theorem Inv.setLine (h : d.Inv) {line : ParentLine} (hline : line.Inv d.numChildren) :
    (d.setLine a line).Inv := by
  refine ⟨fun b => ?_, h.puts⟩
  by_cases hb : b = a
  · subst hb
    simpa [TraceDriver.setLine] using hline
  · simpa [TraceDriver.setLine, hb] using h.lines b

theorem Inv.cStore (h : d.Inv) {c : Nat} (hc : c < d.numChildren) :
    (d.lines a).cStore[c]? = some (d.cStore c a) := by
  have hlt : c < (d.lines a).cStore.length := by
    rw [(h.lines a).length]
    exact hc
  rw [TraceDriver.cStore, List.getD_eq_getElem?_getD, List.getElem?_eq_getElem hlt]
  rfl

/-- A request that suits the state in the `cStore`, together with the store that follows it. -/
theorem Inv.request (h : d.Inv) (hc : acc.childId.toNat < d.numChildren) {type : AccessType}
    (hsuits : Suits type (d.cStore acc.childId.toNat acc.lineAddr)) {initialState : MESIState}
    (hput : initialState = M → type = .PUTX) : ∃ d1 state,
    d.access type acc initialState = some (d1, state) ∧ (d1.store acc state).Inv ∧
      Kept d (d1.store acc state) ∧ (state = I ↔ type = .PUTS ∨ type = .PUTX) ∧
      (d1.store acc state).cStore acc.childId.toNat acc.lineAddr = state := by
  obtain ⟨line, state, haccess, hline, hI, hdirty⟩ := (h.lines acc.lineAddr).request
    (h.cStore hc) hsuits
  refine ⟨{ d.setLine acc.lineAddr line with
    requests := d.requests ++ [⟨acc.lineAddr, type, acc.childId.toNat, initialState⟩] }, state,
    by rw [access, haccess]; rfl, ⟨?_, ?_⟩, ⟨rfl, ?_⟩, hI, ?_⟩
  · intro a
    by_cases ha : a = acc.lineAddr
    · subst ha
      simpa [store, TraceDriver.setLine, ParentLine.store] using hline
    · simpa [store, TraceDriver.setLine, ha] using h.lines a
  · intro req hreq
    simp only [store, TraceDriver.setLine, List.mem_append, List.mem_singleton] at hreq
    rcases hreq with hreq | rfl
    · exact h.puts req hreq
    · exact hput
  · intro a
    by_cases ha : a = acc.lineAddr
    · subst ha
      simpa [store, TraceDriver.setLine, ParentLine.store] using hdirty
    · simp [store, TraceDriver.setLine, ha]
  · have hlt : acc.childId.toNat < line.cStore.length := by
      have hlength := hline.length
      rw [ParentLine.store, List.length_set] at hlength
      omega
    simp [TraceDriver.cStore, store, TraceDriver.setLine, hlt]

theorem Kept.refl (d : TraceDriver) : Kept d d := ⟨rfl, fun _ => id⟩

theorem Kept.trans {d1 d2 d3 : TraceDriver} (h : Kept d1 d2) (h' : Kept d2 d3) : Kept d1 d3 :=
  ⟨h'.numChildren.trans h.numChildren, fun a hd => h'.dirty a (h.dirty a hd)⟩

theorem Inv.put (h : d.Inv) (hc : acc.childId.toNat < d.numChildren) {type : AccessType}
    (htype : type = .PUTS ∨ type = .PUTX)
    (hsuits : Suits type (d.cStore acc.childId.toNat acc.lineAddr)) : ∃ d',
    d.put type acc = some d' ∧ d'.Inv ∧ Kept d d' ∧
      d'.cStore acc.childId.toNat acc.lineAddr = I := by
  have hputx : d.cStore acc.childId.toNat acc.lineAddr = M → type = .PUTX := by
    intro hM
    rw [hM] at hsuits
    rcases htype with rfl | rfl
    · rcases hsuits with h | h <;> cases h
    · rfl
  obtain ⟨d1, state, haccess, hinv, hkept, hI, hstore⟩ := h.request hc hsuits hputx
  obtain rfl : state = I := hI.mpr htype
  exact ⟨_, by rw [TraceDriver.put, haccess, Option.bind_some]; rfl, hinv, hkept, hstore⟩

theorem Inv.get (h : d.Inv) (hc : acc.childId.toNat < d.numChildren)
    (htype : acc.type = .GETS ∨ acc.type = .GETX)
    (hsuits : Suits acc.type (d.cStore acc.childId.toNat acc.lineAddr)) : ∃ d',
    d.get acc (d.cStore acc.childId.toNat acc.lineAddr) = some d' ∧ d'.Inv ∧ Kept d d' := by
  have hclean : d.cStore acc.childId.toNat acc.lineAddr = M → acc.type = .PUTX := by
    intro hM
    rw [hM] at hsuits
    rcases htype with htype | htype <;> rw [htype] at hsuits
    · cases hsuits
    · rcases hsuits with h | h <;> cases h
  obtain ⟨d1, state, haccess, hinv, hkept, hI, -⟩ := h.request hc hsuits hclean
  have hstate : state ≠ I := by
    rw [Ne, hI]
    rcases htype with htype | htype <;> simp [htype]
  exact ⟨_, by rw [TraceDriver.get, haccess, Option.bind_some]; exact if_pos hstate, hinv, hkept⟩

/-- A PUT record that is played meets a state that it suits. -/
theorem Inv.playPut (h : d.Inv) (hc : acc.childId.toNat < d.numChildren)
    (hok : Reconciled acc d) (htype : acc.type = .PUTS ∨ acc.type = .PUTX) : ∃ d',
    (if d.playPuts = false ∨ d.cStore acc.childId.toNat acc.lineAddr = I then some d
      else d.put acc.type acc) = some d' ∧ d'.Inv ∧ Kept d d' := by
  by_cases hskip : d.playPuts = false ∨ d.cStore acc.childId.toNat acc.lineAddr = I
  · exact ⟨d, if_pos hskip, h, .refl d⟩
  · have hplay : d.playPuts = true ∧ d.cStore acc.childId.toNat acc.lineAddr ≠ I := by
      simpa using hskip
    obtain ⟨hputx, hputs⟩ := hok hplay.1
    have hsuits : Suits acc.type (d.cStore acc.childId.toNat acc.lineAddr) := by
      have hvalid := hplay.2
      rcases htype with htype | htype <;> rw [htype]
      · have hM := hputs htype
        cases hstate : d.cStore acc.childId.toNat acc.lineAddr <;> simp_all [Suits]
      · have hS := hputx htype
        cases hstate : d.cStore acc.childId.toNat acc.lineAddr <;> simp_all [Suits]
    obtain ⟨d', hput, hinv, hkept, -⟩ := h.put hc htype hsuits
    exact ⟨d', by rw [if_neg hskip, hput], hinv, hkept⟩

/-- A GET record finds the line absent, or shared by a child that asks for more, or it is preceded
by the PUT that suits the state. -/
theorem Inv.playGet (h : d.Inv) (hc : acc.childId.toNat < d.numChildren)
    (htype : acc.type = .GETS ∨ acc.type = .GETX) : ∃ d',
    (if d.cStore acc.childId.toNat acc.lineAddr = I ∨
        d.cStore acc.childId.toNat acc.lineAddr = S ∧ acc.type = .GETX then
      d.get acc (d.cStore acc.childId.toNat acc.lineAddr)
    else if d.playAllGets then
      (d.put (if d.cStore acc.childId.toNat acc.lineAddr = M then .PUTX else .PUTS) acc).bind
        (TraceDriver.get acc I)
    else some d) = some d' ∧ d'.Inv ∧ Kept d d' := by
  have hmiss : ∀ s, s = I ∨ s = S ∧ acc.type = .GETX → Suits acc.type s := by
    rintro s (rfl | ⟨rfl, hx⟩)
    · rcases htype with htype | htype <;> simp [htype, Suits]
    · simp [hx, Suits]
  by_cases hget : d.cStore acc.childId.toNat acc.lineAddr = I ∨
      d.cStore acc.childId.toNat acc.lineAddr = S ∧ acc.type = .GETX
  · rw [if_pos hget]
    exact h.get hc htype (hmiss _ hget)
  · rw [if_neg hget]
    cases d.playAllGets with
    | false => exact ⟨d, rfl, h, .refl d⟩
    | true =>
      have hvalid : d.cStore acc.childId.toNat acc.lineAddr ≠ I := fun hI => hget (.inl hI)
      have hput : ∀ s, s ≠ I → Suits (if s = M then .PUTX else .PUTS) s ∧
          ((if s = M then AccessType.PUTX else .PUTS) = .PUTS ∨
            (if s = M then AccessType.PUTX else .PUTS) = .PUTX) := by
        intro s hs
        cases s <;> simp_all [Suits]
      obtain ⟨d1, hput, hinv, hkept, hI⟩ := h.put hc (hput _ hvalid).2 (hput _ hvalid).1
      obtain ⟨d', hget, hinv', hkept'⟩ := hinv.get (hkept.numChildren ▸ hc) htype
        (hmiss _ (.inl hI))
      rw [hI] at hget
      exact ⟨d', by rw [if_pos rfl, hput, Option.bind_some, hget], hinv', hkept.trans hkept'⟩

theorem Inv.executeAccess (h : d.Inv) (hc : acc.childId.toNat < d.numChildren)
    (hok : Reconciled acc d) : ∃ d', d.executeAccess acc = some d' ∧ d'.Inv ∧ Kept d d' := by
  rw [TraceDriver.executeAccess, if_pos hc]
  cases htype : acc.type with
  | PUTS => simpa only [htype] using h.playPut hc hok (.inl htype)
  | PUTX => simpa only [htype] using h.playPut hc hok (.inr htype)
  | GETS => simpa only [htype] using h.playGet hc (.inl htype)
  | GETX => simpa only [htype] using h.playGet hc (.inr htype)

theorem Inv.step (op : ReplayOp) (h : d.Inv) (hok : Ok op d) :
    ∃ d', Trace.step op d = some d' ∧ d'.Inv := by
  cases op with
  | record acc =>
    obtain ⟨d', hstep, hinv, -⟩ := h.executeAccess hok.1 hok.2
    exact ⟨d', hstep, hinv⟩
  | evict a =>
    obtain ⟨line, request, hevict, hline, -⟩ := (h.lines a).evict
    exact ⟨_, by rw [Trace.step, hevict]; rfl, h.setLine hline⟩
  | postinsert a exclusive =>
    rw [Trace.step]
    by_cases hempty : (d.lines a).state = I ∧ (d.lines a).entry.isEmpty = true
    · exact ⟨_, if_pos hempty, h.setLine ((h.lines a).postinsert hempty.2 exclusive)⟩
    · exact ⟨d, if_neg hempty, h⟩
  | invalidate a type fs =>
    obtain ⟨line, wb, hinv, hcoherent, hstate, hlength, -⟩ := (h.lines a).processInv hok.1
    have hline : ParentLine.Inv d.numChildren { line with ancestors := fs } :=
      ⟨hcoherent, hstate ▸ hok.2, hlength⟩
    exact ⟨_, by rw [Trace.step, hinv]; rfl, h.setLine hline⟩
  | ancestors a fs =>
    exact ⟨_, rfl, h.setLine ⟨(h.lines a).coherent, hok, (h.lines a).length⟩⟩

theorem Inv.agrees (h : d.Inv) {c : Nat} (hc : c < d.numChildren) :
    Agrees (d.lines a).state (d.lines a).entry ((d.lines a).entry.sharer c) (d.cStore c a) := by
  obtain ⟨-, hall, -⟩ := coherent_cache.mp (h.lines a).coherent
  rw [List.forall₂_map_right_iff] at hall
  obtain ⟨b, hb, hagrees⟩ := agrees_at hall (h.cStore hc)
  rw [Entry.sharer, List.getD_eq_getElem?_getD, hb]
  exact hagrees

end TraceDriver

/-- The `cStore`s and the directory agree, the lines in `M` left with a PUTX, a record that can be
replayed drops no dirty data, and neither does the parent when it gives up the line. -/
structure Replayed (d : TraceDriver) : Prop where
  agrees : ∀ a, ∀ c < d.numChildren,
    Agrees (d.lines a).state (d.lines a).entry ((d.lines a).entry.sharer c) (d.cStore c a)
  puts : ∀ req ∈ d.requests, req.initialState = M → req.type = .PUTX
  record : ∀ acc, Ok (.record acc) d → ∃ d', d.executeAccess acc = some d' ∧
    ∀ a, (d.lines a).Dirty → (d'.lines a).Dirty
  evict : ∀ a, ∃ line request, (d.lines a).evict = some (line, request) ∧
    (request = some .PUTX ↔ HoldsM (d.lines a).node)
  invalidate : ∀ a type, accepts type (d.lines a).state = true → ∃ line wb,
    (d.lines a).processInv type = some (line, wb) ∧ (wb = true ↔ HoldsM (d.lines a).node)

theorem TraceDriver.Inv.replayed {d : TraceDriver} (h : d.Inv) : Replayed d where
  agrees _ _ hc := h.agrees hc
  puts := h.puts
  record acc hok := by
    obtain ⟨d', hstep, -, hkept⟩ := h.executeAccess hok.1 hok.2
    exact ⟨d', hstep, hkept.dirty⟩
  evict a := by
    obtain ⟨line, request, hevict, -, hputx⟩ := (h.lines a).evict
    exact ⟨line, request, hevict, hputx⟩
  invalidate a type ha := by
    obtain ⟨line, wb, hinv, -, -, -, hwb⟩ := (h.lines a).processInv ha
    exact ⟨line, wb, hinv, hwb⟩

/-- A replay whose PUTs fit the states that they meet fails no assertion, and is right in the state
that it reaches. -/
theorem replay_agrees {numChildren : Nat} {playPuts playAllGets : Bool}
    {ancestors : Address → List Frame} {ops : List ReplayOp}
    (habove : ∀ a, Above (ancestors a) I)
    (hok : Lib.Along step Ok ops (.init numChildren playPuts playAllGets ancestors)) :
    ∃ d, Lib.run step ops (.init numChildren playPuts playAllGets ancestors) = some d ∧
      Replayed d := by
  obtain ⟨d, hrun, hinv⟩ := Lib.run_keeps (fun op _ h hop => h.step op hop) ops
    (TraceDriver.init_inv habove) hok
  exact ⟨d, hrun, hinv.replayed⟩

/-- A record of the line at 64. -/
abbrev record64 (childId : UInt32) (type : AccessType) : ReplayOp :=
  .record ⟨64, 0, 0, childId, type⟩

/-- Two children below memory: a downgrade and the PUT that fits it, and an eviction. -/
theorem replay_agrees_two : ∃ d,
    Lib.run step [record64 0 .GETX, record64 1 .GETS, record64 0 .PUTS, record64 1 .GETX,
      .evict 64] (.init 2 true true fun _ => []) = some d ∧ Replayed d := by
  have hok : Lib.Along step Ok [record64 0 .GETX, record64 1 .GETS, record64 0 .PUTS,
      record64 1 .GETX, .evict 64] (.init 2 true true fun _ => []) := by
    refine ⟨by decide, ?_⟩
    rintro _ ⟨⟩
    refine ⟨by decide, ?_⟩
    rintro _ ⟨⟩
    refine ⟨by decide, ?_⟩
    rintro _ ⟨⟩
    refine ⟨by decide, ?_⟩
    rintro _ ⟨⟩
    exact ⟨trivial, fun _ _ => trivial⟩
  exact replay_agrees (fun _ => trivial) hok

/-- A child that wrote a line got it again in the recorded hierarchy, after an invalidation, and put
it clean: in the replay it still has the line dirty, and the PUTS drops the data.  A child that had
a line alone put it dirty: in the replay another child has a copy, and an assertion fails. -/
theorem replay_misfits :
    (∃ d, Lib.run step [record64 0 .GETX, record64 0 .GETS, record64 0 .PUTS]
      (.init 1 true false fun _ => []) = some d ∧ ⟨64, .PUTS, 0, M⟩ ∈ d.requests) ∧
    Lib.run step [record64 1 .GETS, record64 0 .GETS, record64 0 .PUTX]
      (.init 2 true false fun _ => []) = none := by
  refine ⟨⟨_, rfl, ?_⟩, rfl⟩
  decide

end Doppelganger.Trace

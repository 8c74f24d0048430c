import Doppelganger.Lib.Run
import Doppelganger.Mesi.Requests
import Mathlib.Logic.Function.Basic

/-! Runs of a hierarchy.  Each line has its own tree of caches, which shares nothing with those of
other lines: what an access does to other lines (it evicts one at each level where it misses) are
operations of their own.  A path leads from the root to a cache, by child ids. -/

namespace Doppelganger.Mesi

open MESIState List

/-- The cache at the end of a path, with its ancestors. -/
def locate : List Nat → List Frame → Node → Option (List Frame × Node)
  | [], fs, node => some (fs, node)
  | childId :: path, fs, node =>
    (node.unplug childId).bind fun (f, child) => locate path (f :: fs) child

/-- The state of the terminal cache at the end of a path. -/
def leaf : List Nat → Node → Option MESIState
  | [], .terminal s => some s
  | childId :: path, .cache _ _ children => children[childId]?.bind (leaf path)
  | _, _ => none

/-- A line in the hierarchy.  The ghost `dirty` is set when a store completes, and cleared when the
data leaves the hierarchy: with a PUTX to memory, or with a writeback that an invalidation of the
root reports. -/
structure Line where
  root : Node
  dirty : Bool

/-- `processAccess` of `MESITerminalCC`. -/
def terminalAccess (type : AccessType) (flags : Flags) (fs : List Frame) (node : Node) :
    Option (List Frame × Node) :=
  bccProcessAccess type fs node (access type flags fs)

namespace Line

/-- A load of the core of a terminal cache. -/
def load (path : List Nat) (flags : Flags) (line : Line) : Option Line :=
  match locate path [] line.root with
  | some (fs, .terminal s) => (terminalAccess .GETS flags fs (.terminal s)).map
      fun (fs, node) => { line with root := plugAll fs node }
  | _ => some line

/-- A GETS of a prefetcher below a cache with children: `MESICC::processAccess` with the flag
`PREFETCH`, which leaves out the top controller. -/
def prefetch (path : List Nat) (flags : Flags) (line : Line) : Option Line :=
  match locate path [] line.root with
  | some (fs, .cache s e children) =>
    (bccProcessAccess .GETS fs (.cache s e children) (access .GETS flags fs)).map
      fun (fs, node) => { line with root := plugAll fs node }
  | _ => some line

/-- A store of the core of a terminal cache. -/
def store (path : List Nat) (flags : Flags) (line : Line) : Option Line :=
  match locate path [] line.root with
  | some (fs, .terminal s) => (terminalAccess .GETX flags fs (.terminal s)).map
      fun (fs, node) => ⟨plugAll fs node, true⟩
  | _ => some line

/-- An eviction at any cache.  The parent of the root is memory. -/
def evict (path : List Nat) (line : Line) : Option Line :=
  match locate path [] line.root with
  | some (fs, node) => (processEviction fs node).map fun (fs', node, request) =>
      ⟨plugAll fs' node, line.dirty && !(fs.isEmpty && request == some .PUTX)⟩
  | none => some line

/-- An invalidation from above the root, when the state of the root allows it. -/
def invalidate (type : InvType) (line : Line) : Option Line :=
  if accepts type line.root.state then
    (processInv type line.root false).map fun (root, reqWriteback) =>
      ⟨root, line.dirty && !reqWriteback⟩
  else some line

/-- A cache without the line gives it a slot, whose entry keeps the `exclusive` flag of the line
that was there. -/
def postinsert (path : List Nat) (exclusive : Bool) (line : Line) : Option Line :=
  match locate path [] line.root with
  | some (fs, .cache I e children) =>
    if e.isEmpty then
      some { line with root := plugAll fs (.cache I { e with exclusive := exclusive } children) }
    else some line
  | _ => some line

end Line

/-- What happens to a line.  A path that leads to no cache, or not to one of the right kind, is that
of no operation. -/
inductive Op
  | load (path : List Nat) (flags : Flags)
  | prefetch (path : List Nat) (flags : Flags)
  | store (path : List Nat) (flags : Flags)
  | evict (path : List Nat)
  | invalidate (type : InvType)
  | postinsert (path : List Nat) (exclusive : Bool)

/-- One operation on a line, `none` when an assertion fails. -/
def step : Op → Line → Option Line
  | .load path flags => Line.load path flags
  | .prefetch path flags => Line.prefetch path flags
  | .store path flags => Line.store path flags
  | .evict path => Line.evict path
  | .invalidate type => Line.invalidate type
  | .postinsert path exclusive => Line.postinsert path exclusive

/-- One operation of the whole hierarchy. -/
def stepAt (op : Address × Op) (lines : Address → Line) : Option (Address → Line) :=
  (step op.2 (lines op.1)).map (Function.update lines op.1)

/-- The hierarchy after initialization. -/
inductive Fresh : Node → Prop
  | terminal : Fresh (.terminal I)
  | cache {children : List Node} : (∀ child ∈ children, Fresh child) →
      Fresh (.cache I ⟨0, replicate children.length false, false⟩ children)

/-- Three terminal caches: two under one cache, and one under the other. -/
def smallTree : Node :=
  .cache I ⟨0, [false, false], false⟩
    [.cache I ⟨0, [false, false], false⟩ [.terminal I, .terminal I],
      .cache I ⟨0, [false], false⟩ [.terminal I]]

theorem fresh_smallTree : Fresh smallTree := by
  have hone : Fresh (.cache I ⟨0, [false], false⟩ [.terminal I]) :=
    @Fresh.cache [_] (by simp [Fresh.terminal])
  have htwo : Fresh (.cache I ⟨0, [false, false], false⟩ [.terminal I, .terminal I]) :=
    @Fresh.cache [_, _] (by simp [Fresh.terminal])
  exact @Fresh.cache [_, _] (by simp [hone, htwo])

/-- No line is in a cache. -/
def noLines : Address → Line := fun _ => ⟨smallTree, false⟩

theorem fresh_noLines (a : Address) : Fresh (noLines a).root ∧ (noLines a).dirty = false :=
  ⟨fresh_smallTree, rfl⟩

/-- The directories agree with the caches, and dirty data is in some cache. -/
structure Line.Inv (line : Line) : Prop where
  coherent : Coherent line.root
  dirty : line.dirty = true → HoldsM line.root

section

variable {node : Node} {fs : List Frame} {line : Line} {path : List Nat}

theorem Frame.plug_unplug {f : Frame} {child : Node} {childId : Nat}
    (h : node.unplug childId = some (f, child)) : f.plug child = node := by
  cases node with
  | terminal s => simp [Node.unplug] at h
  | cache s e cs =>
    simp only [Node.unplug, Option.map_eq_some_iff, Prod.mk.injEq] at h
    obtain ⟨c, hc, rfl, rfl⟩ := h
    obtain ⟨hlt, rfl⟩ := List.getElem?_eq_some_iff.mp hc
    rw [Frame.plug]
    simp

theorem plugAll_locate : ∀ {path : List Nat} {fs fs' : List Frame} {node node' : Node},
    locate path fs node = some (fs', node') → plugAll fs' node' = plugAll fs node
  | [], fs, fs', node, node', h => by
    simp only [locate, Option.some.injEq, Prod.mk.injEq] at h
    rw [h.1, h.2]
  | childId :: path, fs, fs', node, node', h => by
    simp only [locate, Option.bind_eq_some_iff] at h
    obtain ⟨⟨f, child⟩, hunplug, h⟩ := h
    rw [plugAll_locate h, ← Frame.plug_unplug hunplug]
    rfl

/-- What holds of the root holds around a cache that a path leads to. -/
theorem coherent_locate (h : Coherent line.root) (hl : locate path [] line.root = some (fs, node)) :
    Above fs node.state ∧ Coherent node := by
  have hroot : plugAll fs node = line.root := plugAll_locate hl
  rw [← hroot] at h
  exact coherent_plugAll.mp h

theorem holdsM_locate (hl : locate path [] line.root = some (fs, node)) :
    HoldsM line.root ↔ AboveM fs ∨ HoldsM node := by
  have hroot : plugAll fs node = line.root := plugAll_locate hl
  rw [← hroot, holdsM_plugAll]

theorem agrees_replicate (s : MESIState) (e : Entry) : ∀ {cs : List Node},
    (∀ c ∈ cs, c.state = I) →
    Forall₂ (fun b c => Agrees s e b c.state) (replicate cs.length false) cs
  | [], _ => .nil
  | c :: cs, h => by
    simp only [mem_cons, forall_eq_or_imp] at h
    refine .cons ?_ (agrees_replicate s e h.2)
    rw [h.1]
    exact .absent s e

theorem Fresh.coherent (h : Fresh node) : Coherent node ∧ node.state = I := by
  induction h with
  | terminal => exact ⟨.terminal I, rfl⟩
  | cache _ ih =>
    refine ⟨.cache ⟨(count_eq_zero.mpr (by simp)).symm, by simp⟩
      (agrees_replicate _ _ fun c hc => (ih c hc).2) fun c hc => (ih c hc).1, rfl⟩

theorem NextM.aboveM (h : NextM fs) : AboveM fs := by
  obtain ⟨f, hf, hs⟩ := h
  exact ⟨f, List.mem_of_mem_head? hf, .inl hs⟩

/-- A cache that gets its first copy agrees with its directory, which is empty. -/
theorem Coherent.fetched (h : Coherent node) (hI : node.state = I) (s : MESIState) :
    Coherent (node.setState s) := by
  cases h with
  | terminal => exact .terminal s
  | @cache own _ _ hcount hall hcs =>
    have hI : own = I := hI
    refine .cache hcount (hall.imp fun _ _ ha => ?_) hcs
    exact ha.raise (fun hs => absurd hI hs) (by simp [hI])

/-- A GETS of a cache itself, and a dirty copy is in some cache after it as before. -/
theorem gets_inv (h : line.Inv) (hl : locate path [] line.root = some (fs, node)) (flags : Flags) :
    ∃ fs' node', bccProcessAccess .GETS fs node (access .GETS flags fs) = some (fs', node') ∧
      Line.Inv { line with root := plugAll fs' node' } := by
  obtain ⟨habove, hc⟩ := coherent_locate h.coherent hl
  obtain ⟨fs', s, hbcc, -, ha, hm, -, hcase⟩ := bccProcessAccess_gets habove
    fun hI => access_gets flags hI (hI ▸ habove)
  have hnode : Coherent (node.setState s) ∧ (HoldsM node → HoldsM (node.setState s)) := by
    rcases hcase with ⟨hI, -⟩ | rfl
    · exact ⟨hc.fetched hI s, fun hM => absurd hM (hc.clean (.inl hI))⟩
    · rw [Node.setState_self rfl]
      exact ⟨hc, id⟩
  refine ⟨fs', _, hbcc, coherent_plugAll.mpr ⟨by simpa using ha, hnode.1⟩, fun hd => ?_⟩
  have hM := (holdsM_locate hl).mp (h.dirty hd)
  exact holdsM_plugAll.mpr (hM.imp hm.mpr hnode.2)

theorem load_inv (h : line.Inv) (path : List Nat) (flags : Flags) :
    ∃ line', Line.load path flags line = some line' ∧ line'.Inv := by
  unfold Line.load
  split
  · rename_i fs s hl
    obtain ⟨fs', node', hbcc, hinv⟩ := gets_inv h hl flags
    exact ⟨_, by rw [terminalAccess, hbcc]; rfl, hinv⟩
  · exact ⟨line, rfl, h⟩

theorem prefetch_inv (h : line.Inv) (path : List Nat) (flags : Flags) :
    ∃ line', Line.prefetch path flags line = some line' ∧ line'.Inv := by
  unfold Line.prefetch
  split
  · rename_i fs s e cs hl
    obtain ⟨fs', node', hbcc, hinv⟩ := gets_inv h hl flags
    exact ⟨_, by rw [hbcc]; rfl, hinv⟩
  · exact ⟨line, rfl, h⟩

/-- A store leaves the terminal cache with the dirty copy. -/
theorem store_inv (h : line.Inv) (path : List Nat) (flags : Flags) :
    ∃ line', Line.store path flags line = some line' ∧ line'.Inv := by
  unfold Line.store
  split
  · rename_i fs s hl
    obtain ⟨habove, -⟩ := coherent_locate h.coherent hl
    obtain ⟨fs', hbcc, ha, -⟩ := bccProcessAccess_getx habove
      fun hIS => access_getx flags hIS habove
    refine ⟨_, by rw [terminalAccess, hbcc]; rfl, coherent_plugAll.mpr ⟨ha, .terminal M⟩, ?_⟩
    exact fun _ => holdsM_plugAll.mpr (.inr (.here rfl))
  · exact ⟨line, rfl, h⟩

/-- An eviction hands dirty data to the next level, or to memory. -/
theorem evict_inv (h : line.Inv) (path : List Nat) :
    ∃ line', Line.evict path line = some line' ∧ line'.Inv := by
  unfold Line.evict
  split
  · rename_i fs node hl
    obtain ⟨habove, hc⟩ := coherent_locate h.coherent hl
    obtain ⟨fs', node', request, hev, hc', hI, he⟩ := processEviction_spec hc habove
    refine ⟨_, by rw [hev]; rfl, coherent_plugAll.mpr ⟨hI ▸ he.above, hc'⟩, ?_⟩
    intro hd
    simp only [Bool.and_eq_true, Bool.not_eq_true', Bool.and_eq_false_iff] at hd
    obtain ⟨hd, hleft⟩ := hd
    have hM := (holdsM_locate hl).mp (h.dirty hd)
    refine holdsM_plugAll.mpr (.inl ?_)
    by_cases hn : HoldsM node
    · have hput := he.putx.mpr hn
      rcases he.written hn with rfl | hnext
      · simp [hput] at hleft
      · exact hnext.aboveM
    · exact (he.kept hn).mpr (hM.resolve_right hn)
  · exact ⟨line, rfl, h⟩

/-- An invalidation of the root reports dirty data. -/
theorem invalidate_inv (h : line.Inv) (type : InvType) :
    ∃ line', Line.invalidate type line = some line' ∧ line'.Inv := by
  unfold Line.invalidate
  split
  · rename_i ha
    obtain ⟨root, wb, hinv, hc, -, hwb⟩ := h.coherent.invalidate ha false
    refine ⟨_, by rw [hinv]; rfl, hc, ?_⟩
    intro hd
    simp only [Bool.and_eq_true, Bool.not_eq_true'] at hd
    have hM : wb = true := hwb.mpr (.inr (h.dirty hd.1))
    rw [hM] at hd
    simp at hd
  · exact ⟨line, rfl, h⟩

/-- A stale `exclusive` flag in an empty entry means nothing. -/
theorem postinsert_inv (h : line.Inv) (path : List Nat) (exclusive : Bool) :
    ∃ line', Line.postinsert path exclusive line = some line' ∧ line'.Inv := by
  unfold Line.postinsert
  split
  · rename_i fs e cs hl
    split
    · rename_i hempty
      obtain ⟨habove, hc⟩ := coherent_locate h.coherent hl
      obtain ⟨hcount, hall, hcs⟩ := coherent_cache.mp hc
      have hzero : e.numSharers = 0 := by simpa [Entry.isEmpty] using hempty
      have hnew : Coherent (.cache I { e with exclusive := exclusive } cs) := by
        refine .cache ⟨hcount.count, fun hn => ?_⟩
          (agrees_entry hall (.inr (hcount.empty hempty))) hcs
        have hn : 1 < e.numSharers := hn
        omega
      refine ⟨_, rfl, coherent_plugAll.mpr ⟨habove, hnew⟩, fun hd => holdsM_plugAll.mpr ?_⟩
      have hM := (holdsM_locate hl).mp (h.dirty hd)
      exact .inl (hM.resolve_right (hc.clean (.inl rfl)))
    · exact ⟨line, rfl, h⟩
  · exact ⟨line, rfl, h⟩

/-- Every operation succeeds on a line in order, and leaves it in order. -/
theorem step_inv (op : Op) (h : line.Inv) : ∃ line', step op line = some line' ∧ line'.Inv := by
  cases op with
  | load path flags => exact load_inv h path flags
  | prefetch path flags => exact prefetch_inv h path flags
  | store path flags => exact store_inv h path flags
  | evict path => exact evict_inv h path
  | invalidate type => exact invalidate_inv h type
  | postinsert path exclusive => exact postinsert_inv h path exclusive

theorem stepAt_inv (op : Address × Op) (lines : Address → Line) (h : ∀ a, (lines a).Inv) :
    ∃ lines', stepAt op lines = some lines' ∧ ∀ a, (lines' a).Inv := by
  obtain ⟨line', hstep, hline⟩ := step_inv op.2 (h op.1)
  refine ⟨_, by rw [stepAt, hstep]; rfl, fun a => ?_⟩
  by_cases ha : a = op.1
  · rw [ha, Function.update_self]
    exact hline
  · rw [Function.update_of_ne ha]
    exact h a

/-- Every line is in order after every run of a new hierarchy. -/
theorem run_inv {lines : Address → Line}
    (hfresh : ∀ a, Fresh (lines a).root ∧ (lines a).dirty = false) (ops : List (Address × Op)) :
    ∃ lines', Lib.run stepAt ops lines = some lines' ∧ ∀ a, (lines' a).Inv :=
  Lib.run_always stepAt_inv ops fun a =>
    ⟨(hfresh a).1.coherent.1, fun hd => by simp [(hfresh a).2] at hd⟩

end

end Doppelganger.Mesi

import Doppelganger.Types
import Doppelganger.Intrusive.ListRuns
import Doppelganger.Lib.LruStack

/-! The `IdealLRUArray` of `ideal_arrays.h`, a fully associative array with a map from addresses to
lines and an intrusive list of the lines.  An operation is `none` when an assertion fails or it
reads a null pointer. -/

namespace Doppelganger.Ideal

open Function Lib Intrusive

/-! ### What both arrays have -/

/-- The addresses of the lines, which are `0` for an empty line, and the map. -/
structure Lines where
  lineAddr : Nat → Address
  lineMap : Address → Option Nat

/-- The calls of a cache.  `part` is `mapper->getPartition(*req)`, which an `IdealLRUArray` does not
ask for. -/
inductive ArrayOp
  | lookup (lineAddr : Address) (part : Nat) (updateReplacement : Bool)
  | preinsert (lineAddr : Address) (part : Nat)
  | postinsert (lineAddr : Address) (part : Nat) (lineId : Nat)
deriving DecidableEq, Repr

namespace Lines

/-- The arrays are cleared. -/
def init : Lines := ⟨fun _ => 0, fun _ => none⟩

/-- The part of `postinsert` that both arrays have. -/
def assign (lineAddr : Address) (lineId : Nat) (m : Lines) : Option Lines :=
  let lineMap := update m.lineMap (m.lineAddr lineId) none
  if lineMap lineAddr = none then
    some ⟨update m.lineAddr lineId lineAddr, update lineMap lineAddr (some lineId)⟩
  else none

/-- `lineMap` is a bijection between the resident addresses and the lines that hold them. -/
def Maps (numLines : Nat) (m : Lines) : Prop :=
  ∀ lineAddr id, m.lineMap lineAddr = some id ↔
    id < numLines ∧ lineAddr ≠ 0 ∧ m.lineAddr id = lineAddr

variable {numLines id : Nat} {lineAddr : Address} {m : Lines}

theorem maps_init (numLines : Nat) : init.Maps numLines := fun _ _ =>
  iff_of_false nofun fun h => h.2.1 h.2.2.symm

theorem Maps.assign (h : m.Maps numLines) (hlineAddr : lineAddr ≠ 0)
    (hmiss : m.lineMap lineAddr = none) (hid : id < numLines) :
    ∃ m', m.assign lineAddr id = some m' ∧ m'.Maps numLines ∧
      m'.lineAddr = update m.lineAddr id lineAddr := by
  have herased : update m.lineMap (m.lineAddr id) none lineAddr = none := by
    rw [update_apply, hmiss, ite_self]
  refine ⟨_, if_pos herased, fun x i => ?_, rfl⟩
  dsimp only
  rcases eq_or_ne x lineAddr with rfl | hx
  · rw [update_self, Option.some_inj]
    constructor
    case mp =>
      rintro rfl
      exact ⟨hid, hlineAddr, update_self ..⟩
    case mpr =>
      rintro ⟨hi, -, hix⟩
      by_contra hne
      rw [update_of_ne (Ne.symm hne)] at hix
      exact nomatch hmiss.symm.trans ((h x i).mpr ⟨hi, hlineAddr, hix⟩)
  rw [update_of_ne hx]
  rcases eq_or_ne i id with rfl | hi
  · -- the line has a new address, and what it had is not mapped any more
    rw [update_self]
    refine iff_of_false ?_ fun hheld => hx hheld.2.2.symm
    rcases eq_or_ne x (m.lineAddr i) with rfl | hxi
    · rw [update_self]
      nofun
    · rw [update_of_ne hxi, h]
      exact fun hheld => hxi hheld.2.2.symm
  · rw [update_of_ne hi, ← h]
    rcases eq_or_ne x (m.lineAddr id) with hxid | hxid
    · subst hxid
      rw [update_self]
      refine iff_of_false nofun fun hheld => hi ?_
      have hmapped := (h _ id).mpr ⟨hid, ((h _ i).mp hheld).2.1, rfl⟩
      exact Option.some.inj (hheld.symm.trans hmapped)
    · rw [update_of_ne hxid]

end Lines

/-- `remove(e)` from one list and `push_front(e)` to another. -/
def reinsert {κ : Type*} [DecidableEq κ] (old new : κ) (e : Nat) (h : Heap Nat κ) :
    Option (Heap Nat κ) :=
  (h.remove old e).bind fun h => h.pushFront new e

section Lists

variable {κ : Type*} [DecidableEq κ] {h : Heap Nat κ} {s : κ → List Nat} {e : Nat}

omit [DecidableEq κ] in
theorem owner_eq_none (hr : Represents h s) (he : ∀ l, e ∉ s l) : (h.node e).owner = none := by
  cases howner : (h.node e).owner with
  | none => rfl
  | some l => exact absurd ((hr.owner e l).mp howner) (he l)

theorem represents_reinsert (old new : κ) (hr : Represents h s) (he : e ∈ s old) :
    ∃ g s', reinsert old new e h = some g ∧ Represents g s' ∧
      s' = update (update s old ((s old).erase e)) new
        (e :: update s old ((s old).erase e) new) := by
  obtain ⟨g, hg, hgr⟩ := hr.remove ((hr.owner e old).mpr he)
  have hfree : (g.node e).owner = none := by
    apply owner_eq_none hgr
    intro l hmem
    rcases eq_or_ne l old with rfl | hl
    · rw [update_self] at hmem
      exact (hr.nodup l).not_mem_erase hmem
    · rw [update_of_ne hl] at hmem
      exact hl (hr.disjoint hmem he)
  obtain ⟨g', hg', hgr'⟩ := hgr.pushFront (l := new) hfree
  exact ⟨g', _, by rw [reinsert, hg]; exact hg', hgr', rfl⟩

/-- `push_front` of new lines in turn. -/
theorem represents_fill (l : κ) {ids : List Nat} (hr : Represents h s) (hids : ids.Nodup)
    (hnew : ∀ id ∈ ids, ∀ l, id ∉ s l) :
    ∃ g, ids.foldlM (fun (h : Heap Nat κ) i => h.pushFront l i) h = some g ∧
      Represents g (update s l (ids.reverse ++ s l)) := by
  induction ids generalizing h s with
  | nil => exact ⟨h, rfl, by rwa [List.reverse_nil, List.nil_append, update_eq_self]⟩
  | cons id ids ih =>
    obtain ⟨hid, hids⟩ := List.nodup_cons.mp hids
    have hfree := owner_eq_none hr (hnew id (List.mem_cons_self ..))
    obtain ⟨g, hg, hgr⟩ := hr.pushFront (l := l) hfree
    have hrest : ∀ x ∈ ids, ∀ l', x ∉ update s l (id :: s l) l' := by
      intro x hx l'
      rcases eq_or_ne l' l with rfl | hl
      · rw [update_self, List.mem_cons, not_or]
        exact ⟨fun heq => hid (heq ▸ hx), hnew x (List.mem_cons_of_mem _ hx) l'⟩
      · rw [update_of_ne hl]
        exact hnew x (List.mem_cons_of_mem _ hx) l'
    obtain ⟨g', hg', hgr'⟩ := ih hgr hids hrest
    refine ⟨g', ?_, ?_⟩
    · rw [List.foldlM_cons, hg]
      exact hg'
    · rw [update_self, update_idem] at hgr'
      rw [List.reverse_cons, List.append_assoc]
      exact hgr'

end Lists

/-! ### `IdealLRUArray` -/

structure IdealLRUArray where
  lines : Lines
  lruList : Heap Nat Unit

namespace IdealLRUArray

/-- The constructor. -/
def init (numLines : Nat) : Option IdealLRUArray :=
  ((List.range numLines).foldlM (fun (h : Heap Nat Unit) i => h.pushFront () i) Heap.init).map
    (⟨Lines.init, ·⟩)

def lookup (lineAddr : Address) (updateReplacement : Bool) (a : IdealLRUArray) :
    Option (Option Nat × IdealLRUArray) :=
  (a.lines.lineMap lineAddr).elim (some (none, a)) fun lineId =>
    if updateReplacement then
      (reinsert () () lineId a.lruList).map fun lruList =>
        (some lineId, { a with lruList := lruList })
    else some (some lineId, a)

/-- The line, and `*wbLineAddr`. -/
def preinsert (_lineAddr : Address) (a : IdealLRUArray) : Option (Nat × Address) :=
  (a.lruList.list ()).tail.map fun lineId => (lineId, a.lines.lineAddr lineId)

def postinsert (lineAddr : Address) (lineId : Nat) (a : IdealLRUArray) : Option IdealLRUArray :=
  (a.lines.assign lineAddr lineId).bind fun lines =>
    (reinsert () () lineId a.lruList).map fun lruList => ⟨lines, lruList⟩

def step : ArrayOp → IdealLRUArray → Option IdealLRUArray
  | .lookup lineAddr _ updateReplacement, a => (a.lookup lineAddr updateReplacement).map Prod.snd
  | .preinsert lineAddr _, a => (a.preinsert lineAddr).map fun _ => a
  | .postinsert lineAddr _ lineId, a => a.postinsert lineAddr lineId

end IdealLRUArray

/-- The line that a call uses. -/
def ArrayOp.uses (m : Lines) : ArrayOp → Option Nat
  | lookup lineAddr _ updateReplacement => if updateReplacement then m.lineMap lineAddr else none
  | preinsert _ _ => none
  | postinsert _ _ lineId => some lineId

/-- A lookup or an insertion of a non-zero address, where an insertion is one of an address that is
not resident. -/
def ArrayOp.Legal (numLines partitions : Nat) (m : Lines) : ArrayOp → Prop
  | lookup lineAddr part _ | preinsert lineAddr part => lineAddr ≠ 0 ∧ part < partitions
  | postinsert lineAddr part lineId =>
    lineAddr ≠ 0 ∧ part < partitions ∧ m.lineMap lineAddr = none ∧ lineId < numLines

instance (numLines partitions : Nat) (m : Lines) :
    ∀ op : ArrayOp, Decidable (op.Legal numLines partitions m)
  | .lookup .. | .preinsert .. | .postinsert .. => inferInstanceAs (Decidable (_ ∧ _))

/-- The array, and when each line was used last, which is `0` for never. -/
structure History where
  array : IdealLRUArray
  now : Nat
  lastUse : Nat → Nat

namespace History

def step (op : ArrayOp) (t : History) : Option History :=
  (t.array.step op).map fun array =>
    ⟨array, t.now + 1, (op.uses t.array.lines).elim t.lastUse fun id =>
      update t.lastUse id (t.now + 1)⟩

def init (numLines : Nat) : Option History :=
  (IdealLRUArray.init numLines).map fun array => ⟨array, 0, fun _ => 0⟩

/-- The victim is an empty line, or else the one that was used least recently. -/
def EvictsLru (numLines : Nat) (t : History) : Prop :=
  ∀ lineAddr, ∃ victim, t.array.preinsert lineAddr = some (victim, t.array.lines.lineAddr victim) ∧
    victim < numLines ∧
    ((∃ id < numLines, t.array.lines.lineAddr id = 0) → t.array.lines.lineAddr victim = 0) ∧
    (t.array.lines.lineAddr victim ≠ 0 → ∀ id < numLines, id ≠ victim →
      t.lastUse victim < t.lastUse id)

structure Inv (numLines : Nat) (t : History) (list : List Nat) : Prop where
  maps : t.array.lines.Maps numLines
  lists : Represents t.array.lruList fun _ => list
  mem : ∀ id, id ∈ list ↔ id < numLines
  stamped : Stamped t.lastUse list
  past : ∀ id, t.lastUse id ≤ t.now
  used : ∀ id, t.lastUse id = 0 ↔ t.array.lines.lineAddr id = 0

variable {numLines partitions : Nat} {t : History} {list : List Nat}

/-- With one list only, an update replaces it. -/
theorem update_lists (list list' : List Nat) :
    update (fun _ : Unit => list) () list' = fun _ => list' := by
  funext u
  exact update_self ..

theorem inv_init (numLines : Nat) : ∃ t list, init numLines = some t ∧ t.Inv numLines list := by
  obtain ⟨h, hh, hr⟩ := represents_fill () init_represents (List.nodup_range (n := numLines))
    fun _ _ _ => List.not_mem_nil
  rw [update_lists, List.append_nil] at hr
  refine ⟨⟨⟨Lines.init, h⟩, 0, fun _ => 0⟩, (List.range numLines).reverse, ?_, ?_⟩
  · rw [init, IdealLRUArray.init, hh]
    rfl
  · constructor
    case maps => exact Lines.maps_init numLines
    case lists => exact hr
    case mem => simp
    case stamped => exact List.pairwise_of_forall fun _ _ => .inr ⟨rfl, rfl⟩
    case past => exact fun _ => Nat.le_refl 0
    case used => exact fun _ => iff_of_true rfl rfl

/-- A line that is used is moved to the front, whatever is in it. -/
theorem Inv.use (h : t.Inv numLines list) {id : Nat} (hid : id < numLines) {lines : Lines}
    (hmaps : lines.Maps numLines) (haddr : lines.lineAddr id ≠ 0)
    (hother : ∀ i, i ≠ id → lines.lineAddr i = t.array.lines.lineAddr i) :
    ∃ lruList, reinsert () () id t.array.lruList = some lruList ∧
      Inv numLines ⟨⟨lines, lruList⟩, t.now + 1, update t.lastUse id (t.now + 1)⟩
        (touch id list) := by
  obtain ⟨g, s', hg, hr, hs'⟩ :=
    represents_reinsert () () h.lists ((h.mem id).mpr hid)
  have hlists : s' = fun _ => touch id list := by
    rw [hs', update_lists, update_lists]
    rfl
  refine ⟨g, hg, ?_⟩
  constructor
  case maps => exact hmaps
  case lists => exact hlists ▸ hr
  case mem =>
    intro i
    rw [touch, List.mem_cons, (h.lists.nodup ()).mem_erase_iff, h.mem]
    rcases eq_or_ne i id with rfl | hi
    · exact iff_of_true (.inl rfl) hid
    · simp [hi]
  case stamped =>
    exact h.stamped.touch (h.lists.nodup ()) fun x => Nat.lt_succ_of_le (h.past x)
  case past =>
    intro i
    dsimp only
    rw [update_apply]
    split
    case isTrue => exact Nat.le_refl _
    case isFalse => exact Nat.le_succ_of_le (h.past i)
  case used =>
    intro i
    dsimp only
    rcases eq_or_ne i id with rfl | hi
    · rw [update_self]
      exact iff_of_false (Nat.succ_ne_zero _) haddr
    · rw [update_of_ne hi, hother i hi, h.used]

theorem Inv.wait (h : t.Inv numLines list) :
    Inv numLines ⟨t.array, t.now + 1, t.lastUse⟩ list :=
  ⟨h.maps, h.lists, h.mem, h.stamped, fun id => Nat.le_succ_of_le (h.past id), h.used⟩

theorem Inv.step (h : t.Inv numLines list) (hpos : 0 < numLines) {op : ArrayOp}
    (hop : op.Legal numLines partitions t.array.lines) :
    ∃ t' list', t.step op = some t' ∧ t'.Inv numLines list' := by
  cases op with
  | lookup lineAddr part updateReplacement =>
    rw [History.step, IdealLRUArray.step, IdealLRUArray.lookup, ArrayOp.uses]
    cases hfound : t.array.lines.lineMap lineAddr with
    | none => cases updateReplacement <;> exact ⟨_, list, rfl, h.wait⟩
    | some id =>
      cases updateReplacement with
      | false => exact ⟨_, list, rfl, h.wait⟩
      | true =>
        obtain ⟨hid, hlineAddr, haddr⟩ := (h.maps lineAddr id).mp hfound
        obtain ⟨lruList, hlru, hinv⟩ := h.use hid h.maps (haddr ▸ hlineAddr) fun _ _ => rfl
        refine ⟨_, _, ?_, hinv⟩
        rw [Option.elim_some, if_pos rfl, hlru]
        rfl
  | preinsert lineAddr part =>
    have hlist : list ≠ [] := List.ne_nil_of_mem ((h.mem 0).mpr hpos)
    rw [History.step, IdealLRUArray.step, IdealLRUArray.preinsert, h.lists.list,
      List.getLast?_eq_some_getLast hlist]
    exact ⟨_, list, rfl, h.wait⟩
  | postinsert lineAddr part id =>
    obtain ⟨hlineAddr, -, hmiss, hid⟩ := hop
    obtain ⟨lines, hlines, hmaps, haddrs⟩ := h.maps.assign hlineAddr hmiss hid
    obtain ⟨lruList, hlru, hinv⟩ := h.use hid hmaps
      (by rw [haddrs, update_self]; exact hlineAddr)
      fun i hi => by rw [haddrs, update_of_ne hi]
    refine ⟨_, _, ?_, hinv⟩
    rw [History.step, IdealLRUArray.step, IdealLRUArray.postinsert, hlines, Option.bind_some, hlru]
    rfl

theorem Inv.evictsLru (h : t.Inv numLines list) (hpos : 0 < numLines) : t.EvictsLru numLines := by
  have hlist : list ≠ [] := List.ne_nil_of_mem ((h.mem 0).mpr hpos)
  have hlast := List.getLast?_eq_some_getLast hlist
  have hleast := h.stamped.last hlast
  intro lineAddr
  refine ⟨list.getLast hlist, ?_, (h.mem _).mp (List.getLast_mem hlist), ?_, ?_⟩
  · rw [IdealLRUArray.preinsert, h.lists.list, hlast]
    rfl
  · rintro ⟨id, hid, hempty⟩
    rw [← h.used] at hempty ⊢
    rcases eq_or_ne id (list.getLast hlist) with heq | hne
    · exact heq ▸ hempty
    · obtain hlt | ⟨-, hzero⟩ := hleast id ((h.mem id).mpr hid) hne
      · rw [hempty] at hlt
        exact absurd hlt (Nat.not_lt_zero _)
      · exact hzero
  · intro haddr id hid hne
    rw [Ne, ← h.used] at haddr
    exact (hleast id ((h.mem id).mpr hid) hne).resolve_right fun hzero => haddr hzero.2

/-- In every state that is reached the map is a bijection, and the victim the right one. -/
theorem Inv.runs (h : t.Inv numLines list) (hpos : 0 < numLines) {ops : List ArrayOp}
    (hops : Along History.step (fun op t => op.Legal numLines partitions t.array.lines) ops t) :
    ∃ t', Lib.run History.step ops t = some t' ∧ t'.array.lines.Maps numLines ∧
      t'.EvictsLru numLines := by
  have hstep : ∀ op (t : History), (∃ list, t.Inv numLines list) →
      op.Legal numLines partitions t.array.lines →
      ∃ t', History.step op t = some t' ∧ ∃ list, t'.Inv numLines list := by
    rintro op t ⟨list, ht⟩ hop
    obtain ⟨t', list', ht', hinv⟩ := ht.step hpos hop
    exact ⟨t', ht', list', hinv⟩
  obtain ⟨t', hrun, list', h'⟩ := run_keeps hstep ops ⟨list, h⟩ hops
  exact ⟨t', hrun, h'.maps, h'.evictsLru hpos⟩

end History

end Doppelganger.Ideal

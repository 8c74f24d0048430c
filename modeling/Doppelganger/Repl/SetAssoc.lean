import Doppelganger.Lib.LruStack
import Doppelganger.Lib.Run
import Doppelganger.Llc.Arrays
import Doppelganger.Mesi.Hierarchy
import Doppelganger.Repl.Lru

/-! An inclusive `Cache` with a `SetAssocArray` and the policy of `LRU` and `LRUNoSh`, which is
`LRUReplPolicy<false>` for both.  The policy keeps a timestamp for each line and looks for the
least of them; this is the least recently used line that the cache holds.  Accesses are atomic.
An operation is `none` when the source panics or fails an assertion. -/

namespace Doppelganger.SetAssoc

open List Lib Doppelganger.Repl MESIState

/-- What the constructor of `SetAssocArray` is given and checks.  `hash` is that of the hash family,
`hf->hash(0, lineAddr)`. -/
structure Config where
  numLines : Nat
  assoc : Nat
  hash : Address → Nat
  pow2 : isPow2 (numLines / assoc) = true

namespace Config

variable (cfg : Config)

def numSets : Nat := cfg.numLines / cfg.assoc

def setMask : Nat := cfg.numSets - 1

def set (lineAddr : Address) : Nat := cfg.hash lineAddr &&& cfg.setMask

/-- The ids `[first, first + assoc)` of the lines of a set. -/
def ways (set : Nat) : List Nat := List.range' (set * cfg.assoc) cfg.assoc

end Config

/-- `array` of the array, the policy, and `array` of the bottom controller.  The ghost `sent` has
what the cache sent to its parents for the lines that it evicted. -/
structure Cache where
  array : Nat → Address
  rp : Lru
  state : Nat → MESIState
  sent : List (AccessType × Address)

/-- After the constructors. -/
def start : Cache := ⟨fun _ => 0, Lru.start, fun _ => I, []⟩

/-- A request, and what does not depend on the cache: the state that the parent grants when it is
asked, and whether the invalidations for the victim and for the request find dirty data in a
child. -/
structure Request where
  type : AccessType
  lineAddr : Address
  granted : MESIState
  victimWriteback : Bool
  lowerLevelWriteback : Bool

inductive Op
  | access (req : Request)
  | invalidate (type : InvType) (lineAddr : Address)

/-! ### The controller -/

/-- `processEviction`: the requests that it sends to the parent.  An invalid line has no sharers, so
nothing is written back to it. -/
def processEviction (victimWriteback : Bool) (state : MESIState) : Option (List AccessType) :=
  if state = I then some []
  else if victimWriteback then
    if state = M ∨ state = E then some [.PUTX] else none
  else if state = M then some [.PUTX] else some [.PUTS]

/-- `processWritebackOnAccess`, when there is a write-back. -/
def processWritebackOnAccess (lowerLevelWriteback : Bool) (state : MESIState) : Option MESIState :=
  if lowerLevelWriteback then
    if state = M ∨ state = E then some M else none
  else some state

/-- `processAccess` of the controllers: the state of the line after it. -/
def processAccess (req : Request) (state : MESIState) : Option MESIState :=
  (Mesi.bccProcessAccess req.type [] (.terminal state)
      fun node => some ([], node.setState req.granted)).bind fun above =>
    processWritebackOnAccess req.lowerLevelWriteback above.2.state

def processInval (type : InvType) (state : MESIState) : Option MESIState :=
  (Mesi.bccProcessInval type state false).map Prod.fst

/-! ### The cache -/

def isGet (type : AccessType) : Bool := type == .GETS || type == .GETX

section

variable (cfg : Config)

/-- `SetAssocArray::lookup`, but for the update of the policy. -/
def lookup (lineAddr : Address) (array : Nat → Address) : Option Nat :=
  (cfg.ways (cfg.set lineAddr)).find? fun id => array id == lineAddr

/-- The scores of `LRUReplPolicy<false>`. -/
def score (s : Cache) (id : Nat) : Nat :=
  Policy.LRUReplPolicy.score false cfg.numLines ⟨fun _ => 0, fun id => s.state id ≠ I⟩ s.rp id

/-- `SetAssocArray::preinsert`: the candidate. -/
def preinsert (lineAddr : Address) (s : Cache) : Nat :=
  rank (score cfg s) (cfg.ways (cfg.set lineAddr))

def postinsert (lineAddr : Address) (candidate : Nat) (s : Cache) : Cache :=
  { s with
    rp := (s.rp.replaced candidate).update candidate
    array := Function.update s.array candidate lineAddr }

/-- The line leaves the cache. -/
def evict (req : Request) (id : Nat) (s : Cache) : Option Cache :=
  (processEviction req.victimWriteback (s.state id)).map fun types =>
    { s with
      state := Function.update s.state id I
      sent := s.sent ++ types.map fun type => (type, s.array id) }

/-- `processAccess` on a line of the cache. -/
def fill (req : Request) (id : Nat) (s : Cache) : Option Cache :=
  (processAccess req (s.state id)).map fun st =>
    { s with state := Function.update s.state id st }

/-- `Cache::access`. -/
def access (req : Request) (s : Cache) : Option Cache :=
  let updateReplacement := isGet req.type
  match lookup cfg req.lineAddr s.array with
  | some id =>
    fill req id (if updateReplacement then { s with rp := s.rp.update id } else s)
  | none =>
    -- `shouldAllocate`
    if isGet req.type then
      let id := preinsert cfg req.lineAddr s
      (evict req id s).bind fun s => fill req id (postinsert req.lineAddr id s)
    else none

/-- `Cache::finishInvalidate`. -/
def finishInvalidate (type : InvType) (lineAddr : Address) (s : Cache) : Option Cache :=
  (lookup cfg lineAddr s.array).bind fun id =>
    (processInval type (s.state id)).map fun st =>
      { s with state := Function.update s.state id st }

def step : Op → Cache → Option Cache
  | .access req, s => access cfg req s
  | .invalidate type lineAddr, s => finishInvalidate cfg type lineAddr s

/-- The state in which the cache has a line. -/
def Cache.stateOf (s : Cache) (lineAddr : Address) : MESIState :=
  match lookup cfg lineAddr s.array with
  | some id => s.state id
  | none => I

end

/-! ### Sets in the order of their last accesses -/

/-- The lines that each set holds, the one last accessed first, and their states. -/
structure LruSets where
  lines : Nat → List Address
  state : Address → MESIState
  sent : List (AccessType × Address)

namespace LruSets

def start : LruSets := ⟨fun _ => [], fun _ => I, []⟩

/-- The line that a full set drops for another one. -/
def victim (assoc : Nat) (lineAddr : Address) (lines : List Address) : Option Address :=
  if lineAddr ∈ lines ∨ lines.length < assoc then none else lines.getLast?

def evict (req : Request) (t : LruSets) : Option Address → Option LruSets
  | none => some t
  | some lineAddr =>
    (processEviction req.victimWriteback (t.state lineAddr)).map fun types =>
      { t with
        state := Function.update t.state lineAddr I
        sent := t.sent ++ types.map fun type => (type, lineAddr) }

def touch (assoc set : Nat) (lineAddr : Address) (t : LruSets) : LruSets :=
  { t with lines := Function.update t.lines set (lruAccess assoc lineAddr (t.lines set)) }

def fill (req : Request) (t : LruSets) : Option LruSets :=
  (processAccess req (t.state req.lineAddr)).map fun st =>
    { t with state := Function.update t.state req.lineAddr st }

def access (cfg : Config) (req : Request) (t : LruSets) : Option LruSets :=
  if isGet req.type then
    let set := cfg.set req.lineAddr
    (t.evict req (victim cfg.assoc req.lineAddr (t.lines set))).bind fun t =>
      fill req (t.touch cfg.assoc set req.lineAddr)
  else fill req t

def invalidate (cfg : Config) (type : InvType) (lineAddr : Address) (t : LruSets) :
    Option LruSets :=
  let set := cfg.set lineAddr
  (processInval type (t.state lineAddr)).map fun st =>
    { t with
      state := Function.update t.state lineAddr st
      lines := if st = I then Function.update t.lines set ((t.lines set).erase lineAddr)
        else t.lines }

def step (cfg : Config) : Op → LruSets → Option LruSets
  | .access req, t => t.access cfg req
  | .invalidate type lineAddr, t => t.invalidate cfg type lineAddr

end LruSets

/-- The line of an access that updates the policy. -/
def Op.get : Op → Option Address
  | .access req => if isGet req.type then some req.lineAddr else none
  | .invalidate .. => none

/-- The accesses of a run that update the policy. -/
def gets (ops : List Op) : List Address := ops.filterMap Op.get

section

variable {cfg : Config} {a b : Address} {array : Nat → Address} {id j k : Nat}

theorem Config.mem_ways : id ∈ cfg.ways k ↔ k * cfg.assoc ≤ id ∧ id < k * cfg.assoc + cfg.assoc :=
  mem_range'_1

theorem Config.length_ways (k : Nat) : (cfg.ways k).length = cfg.assoc := length_range'

theorem lookup_some (h : lookup cfg a array = some id) :
    id ∈ cfg.ways (cfg.set a) ∧ array id = a :=
  ⟨mem_of_find?_eq_some h, by simpa using find?_some h⟩

theorem lookup_none (h : lookup cfg a array = none) :
    ∀ id ∈ cfg.ways (cfg.set a), array id ≠ a := by
  simpa [lookup] using h

/-- After an insertion the new line is found. -/
theorem lookup_inserted (hmem : id ∈ cfg.ways (cfg.set a)) (hmiss : lookup cfg a array = none) :
    lookup cfg a (Function.update array id a) = some id := by
  refine Llc.find_only (by simp) hmem fun j hj hja => ?_
  by_contra hne
  rw [Function.update_of_ne hne] at hja
  exact lookup_none hmiss j hj (by simpa using hja)

/-- The other lines are found as before. -/
theorem lookup_kept (hab : b ≠ a) (hb : lookup cfg b array = some j) (hne : j ≠ id) :
    lookup cfg b (Function.update array id a) = some j := by
  refine Llc.find_mono (fun i hi => ?_) ?_ hb
  · by_cases hid : i = id
    · subst hid
      rw [Function.update_self] at hi
      exact absurd (by simpa using hi) hab.symm
    · rwa [Function.update_of_ne hid] at hi
  · rw [Function.update_of_ne hne]
    simpa using (lookup_some hb).2

end

/-! ### The victim -/

section

variable {cfg : Config} {s : Cache} {a : Address} {id : Nat}

/-- A line that is not valid has the least score. -/
theorem score_eq (htime : s.rp.array id < 2 ^ 32) :
    uint32 (score cfg s id) = if s.state id = I then 0 else s.rp.array id := by
  have hwords : uint32 (uint64 (s.rp.array id)) = s.rp.array id := by
    rw [uint64, uint32, Nat.mod_eq_of_lt (htime.trans (by decide)), Nat.mod_eq_of_lt htime]
  rw [score, Policy.score, Policy.fullScore, Lru.fullScore, if_neg Bool.false_ne_true,
    Nat.zero_mul, Nat.zero_add]
  by_cases hI : s.state id = I
  · simp [Policy.counts, hI, uint32, uint64]
  · simpa [Policy.counts, hI] using hwords

theorem preinsert_spec (a : Address) (hpos : 0 < cfg.assoc)
    (htime : ∀ id, s.rp.array id < 2 ^ 32) :
    preinsert cfg a s ∈ cfg.ways (cfg.set a) ∧
      ∀ c ∈ cfg.ways (cfg.set a),
        (if s.state (preinsert cfg a s) = I then 0 else s.rp.array (preinsert cfg a s)) ≤
          if s.state c = I then 0 else s.rp.array c := by
  have hne : cfg.ways (cfg.set a) ≠ [] := by
    apply ne_nil_of_length_pos
    rw [cfg.length_ways]
    exact hpos
  obtain ⟨hmem, hleast⟩ : rank (score cfg s) (cfg.ways (cfg.set a)) ∈ _ ∧ _ := rank_spec hne
  refine ⟨hmem, fun c hc => ?_⟩
  rw [← score_eq (htime _), ← score_eq (htime c)]
  exact hleast c hc

end

/-! ### The refinement -/

/-- The lines `ids` of a set are those that it holds, the one last updated first. -/
structure Recent (cfg : Config) (s : Cache) (k : Nat) (ids : List Nat) : Prop where
  mem : ∀ id, id ∈ ids ↔ id ∈ cfg.ways k ∧ s.state id ≠ I
  nodup : ids.Nodup
  stamped : Stamped s.rp.array ids

/-- The cache has what the sets have. -/
structure Refines (cfg : Config) (s : Cache) (t : LruSets) : Prop where
  sent : s.sent = t.sent
  stamps : ∀ id, s.rp.array id < s.rp.timestamp
  updated : ∀ k, ∀ id ∈ cfg.ways k, s.state id ≠ I → 0 < s.rp.array id
  found : ∀ k, ∀ id ∈ cfg.ways k, s.state id ≠ I →
    cfg.set (s.array id) = k ∧ lookup cfg (s.array id) s.array = some id
  lines : ∀ k, ∃ ids, Recent cfg s k ids ∧ t.lines k = ids.map s.array
  state : ∀ a, t.state a = s.stateOf cfg a

section

variable {cfg : Config} {s : Cache} {t : LruSets} {a : Address} {id j k : Nat} {ids : List Nat}

theorem Recent.length_le (h : Recent cfg s k ids) : ids.length ≤ cfg.assoc := by
  have hsub : ids ⊆ cfg.ways k := fun id hid => ((h.mem id).mp hid).1
  have hle := (h.nodup.subperm hsub).length_le
  rwa [cfg.length_ways] at hle

theorem Refines.start (cfg : Config) : Refines cfg SetAssoc.start LruSets.start where
  sent := rfl
  stamps _ := Nat.zero_lt_one
  updated _ _ _ h := absurd rfl h
  found _ _ _ h := absurd rfl h
  lines k := by
    refine ⟨[], ⟨fun id => ?_, nodup_nil, Pairwise.nil⟩, rfl⟩
    exact ⟨fun h => absurd h not_mem_nil, fun h => absurd rfl h.2⟩
  state a := by
    unfold Cache.stateOf
    split <;> rfl

/-- A line that is valid is the one that the lookup of its address finds. -/
theorem Refines.only (h : Refines cfg s t) (hj : j ∈ cfg.ways k) (hstate : s.state j ≠ I)
    (hid : lookup cfg (s.array j) s.array = some id) : j = id := by
  have hfound := (h.found k j hj hstate).2
  rw [hid] at hfound
  exact (Option.some.inj hfound).symm

theorem Refines.stateOf_some (hid : lookup cfg a s.array = some id) :
    s.stateOf cfg a = s.state id := by
  rw [Cache.stateOf, hid]

theorem Refines.stateOf_none (hmiss : lookup cfg a s.array = none) : s.stateOf cfg a = I := by
  rw [Cache.stateOf, hmiss]

/-- A set holds the lines that have a state. -/
theorem Refines.mem_lines (h : Refines cfg s t) : a ∈ t.lines (cfg.set a) ↔ t.state a ≠ I := by
  obtain ⟨ids, hids, hlines⟩ := h.lines (cfg.set a)
  rw [hlines, mem_map, h.state a]
  constructor
  · rintro ⟨id, hid, rfl⟩
    obtain ⟨hway, hstate⟩ := (hids.mem id).mp hid
    rwa [stateOf_some (h.found _ id hway hstate).2]
  · intro hstate
    cases hid : lookup cfg a s.array with
    | none => exact absurd (stateOf_none hid) hstate
    | some id =>
      rw [stateOf_some hid] at hstate
      obtain ⟨hway, ha⟩ := lookup_some hid
      exact ⟨id, (hids.mem id).mpr ⟨hway, hstate⟩, ha⟩

end

/-! ### Changes of one line -/

theorem update_array (rp : Lru) (id : Nat) :
    (rp.update id).array = Function.update rp.array id rp.timestamp := by
  funext i
  rw [Function.update_apply]
  rfl

section

variable {cfg : Config} {s s' : Cache} {t : LruSets} {a : Address} {id j k k' : Nat}
  {ids : List Nat} {st : MESIState}

theorem Config.ways_unique (hk : id ∈ cfg.ways k) (hk' : id ∈ cfg.ways k') : k = k' := by
  have hdiv : ∀ {k}, id ∈ cfg.ways k → id / cfg.assoc = k := by
    intro k h
    obtain ⟨hfirst, hend⟩ := cfg.mem_ways.mp h
    rw [← Nat.succ_mul] at hend
    exact Nat.div_eq_of_lt_le hfirst hend
  rw [← hdiv hk, hdiv hk']

theorem Recent.congr (h : Recent cfg s k ids)
    (hsame : ∀ j ∈ cfg.ways k, s'.state j = s.state j ∧ s'.rp.array j = s.rp.array j) :
    Recent cfg s' k ids where
  mem j := by
    rw [h.mem j]
    apply and_congr_right
    intro hj
    rw [(hsame j hj).1]
  nodup := h.nodup
  stamped := by
    refine h.stamped.imp_of_mem fun {x y} hx hy hxy => ?_
    rw [(hsame x ((h.mem x).mp hx).1).2, (hsame y ((h.mem y).mp hy).1).2]
    exact hxy

/-- The state of a valid line changes. -/
theorem Refines.setState (h : Refines cfg s t) (hid : lookup cfg a s.array = some id)
    (hvalid : s.state id ≠ I) (st : MESIState) :
    Refines cfg { s with state := Function.update s.state id st }
      { t with
        state := Function.update t.state a st
        lines := if st = I then
            Function.update t.lines (cfg.set a) ((t.lines (cfg.set a)).erase a)
          else t.lines } := by
  obtain ⟨hway, ha⟩ := lookup_some hid
  have hof : ∀ {j}, Function.update s.state id st j ≠ I → s.state j ≠ I := by
    intro j hj
    by_cases hjid : j = id
    · rwa [hjid]
    · rwa [Function.update_of_ne hjid] at hj
  refine ⟨h.sent, h.stamps, fun k j hj hstate => h.updated k j hj (hof hstate),
    fun k j hj hstate => h.found k j hj (hof hstate), fun k => ?_, fun b => ?_⟩
  · obtain ⟨ids, hids, hlines⟩ := h.lines k
    dsimp only
    by_cases hk : k = cfg.set a
    · subst hk
      split
      · next hI =>
        refine ⟨ids.erase id, ⟨fun j => ?_, hids.nodup.erase id, hids.stamped.sublist
          erase_sublist⟩, ?_⟩
        · rw [hids.nodup.mem_erase_iff, hids.mem j]
          dsimp only
          by_cases hj : j = id
          · simp [hj, hI]
          · simp [hj]
        · rw [Function.update_self, hlines, ← ha]
          refine map_erase_of_only fun j hj hja => ?_
          obtain ⟨hjway, hjstate⟩ := (hids.mem j).mp hj
          exact h.only hjway hjstate (by rw [hja, ha, hid])
      · next hne =>
        refine ⟨ids, ⟨fun j => ?_, hids.nodup, hids.stamped⟩, hlines⟩
        rw [hids.mem j]
        dsimp only
        by_cases hj : j = id
        · simp [hj, hne, hvalid]
        · simp [hj]
    · refine ⟨ids, hids.congr fun j hj => ⟨?_, rfl⟩, ?_⟩
      · apply Function.update_of_ne
        rintro rfl
        exact hk (cfg.ways_unique hj hway)
      · rw [← hlines]
        split
        · rw [Function.update_of_ne hk]
        · rfl
  · unfold Cache.stateOf
    dsimp only
    by_cases hb : b = a
    · rw [hb, hid]
      dsimp only
      rw [Function.update_self, Function.update_self]
    · rw [Function.update_of_ne hb, h.state b, Cache.stateOf]
      cases hj : lookup cfg b s.array with
      | none => rfl
      | some j =>
        have hjid : j ≠ id := by
          rintro rfl
          exact hb ((lookup_some hj).2.symm.trans ha)
        exact (Function.update_of_ne hjid ..).symm

end

section

variable {cfg : Config} {s : Cache} {t : LruSets} {a b : Address} {id j k : Nat} {ids : List Nat}
  {st : MESIState} {sent : List (AccessType × Address)}

/-- The line `id` of the set of `a` can take `a`: no other valid line has it, and when another line
is lost, then it is the one last updated before all others of a full set. -/
structure Takes (cfg : Config) (s : Cache) (a : Address) (id : Nat) : Prop where
  mem : id ∈ cfg.ways (cfg.set a)
  found : lookup cfg a (Function.update s.array id a) = some id
  only : ∀ j ∈ cfg.ways (cfg.set a), s.state j ≠ I → s.array j = a → j = id
  last : s.state id ≠ I → s.array id ≠ a → ∀ ids, Recent cfg s (cfg.set a) ids →
    ids.length = cfg.assoc ∧ ids.getLast? = some id

/-- The cache after `id` has taken `a`. -/
def Cache.taken (s : Cache) (a : Address) (id : Nat) (st : MESIState)
    (sent : List (AccessType × Address)) : Cache where
  array := Function.update s.array id a
  rp := s.rp.update id
  state := Function.update s.state id st
  sent := sent

theorem Cache.taken_array : (s.taken a id st sent).array = Function.update s.array id a := rfl

theorem Cache.taken_state : (s.taken a id st sent).state = Function.update s.state id st := rfl

theorem Takes.recent (h : Takes cfg s a id) (hids : Recent cfg s (cfg.set a) ids)
    (hnow : ∀ id, s.rp.array id < s.rp.timestamp) (hst : st ≠ I) :
    Recent cfg (s.taken a id st sent) (cfg.set a) (touch id ids) where
  mem j := by
    rw [touch, mem_cons, hids.nodup.mem_erase_iff, hids.mem j, Cache.taken_state]
    by_cases hj : j = id
    · simp [hj, h.mem, hst]
    · simp [hj]
  nodup := nodup_cons.mpr ⟨hids.nodup.not_mem_erase, hids.nodup.erase id⟩
  stamped := by
    rw [Cache.taken, update_array]
    exact hids.stamped.touch hids.nodup hnow

/-- The lines are those of least recently used replacement. -/
theorem Takes.lines (h : Takes cfg s a id) (hids : Recent cfg s (cfg.set a) ids)
    (hnow : ∀ id, s.rp.array id < s.rp.timestamp) :
    lruAccess cfg.assoc a (ids.map s.array) =
      (touch id ids).map (Function.update s.array id a) := by
  have hsame : ∀ l : List Nat, id ∉ l → l.map s.array = l.map (Function.update s.array id a) := by
    intro l hl
    apply map_congr_left
    intro j hj
    rw [Function.update_of_ne]
    rintro rfl
    exact hl hj
  have htouch : (touch id ids).map (Function.update s.array id a) =
      a :: (ids.erase id).map s.array := by
    rw [touch, map_cons, Function.update_self, ← hsame _ hids.nodup.not_mem_erase]
  have hrecent : Recent cfg (s.taken a id S []) (cfg.set a) (touch id ids) :=
    h.recent hids hnow MESIState.noConfusion
  by_cases hlost : s.state id ≠ I ∧ s.array id ≠ a
  · obtain ⟨hfull, hlast⟩ := h.last hlost.1 hlost.2 ids hids
    obtain ⟨front, rfl⟩ := getLast?_eq_some_iff.mp hlast
    have hmiss : a ∉ (front ++ [id]).map s.array := by
      intro hmem
      obtain ⟨j, hj, hja⟩ := mem_map.mp hmem
      obtain ⟨hway, hstate⟩ := (hids.mem j).mp hj
      rw [h.only j hway hstate hja] at hja
      exact hlost.2 hja
    have hfront : id ∉ front := fun hmem =>
      (nodup_append.mp hids.nodup).2.2 id hmem id (mem_singleton_self id) rfl
    rw [htouch, lruAccess_of_not_mem (by rw [length_map, hfull])
      (by rw [← hfull, length_append]; exact Nat.succ_pos _) hmiss, map_append, map_singleton,
      dropLast_concat, erase_append_right _ hfront, erase_cons_head, append_nil]
  · have hkept : ids.map s.array = ids.map (Function.update s.array id a) := by
      by_cases hmem : id ∈ ids
      · have ha : s.array id = a := by
          by_contra hne
          exact hlost ⟨((hids.mem id).mp hmem).2, hne⟩
        rw [← ha, Function.update_eq_self]
      · exact hsame ids hmem
    have herase : (ids.map s.array).erase a =
        (ids.erase id).map (Function.update s.array id a) := by
      have herase := map_erase_of_only (f := Function.update s.array id a) (x := id) (l := ids)
        fun j hj hja => by
          by_contra hne
          rw [Function.update_self, Function.update_of_ne hne] at hja
          obtain ⟨hway, hstate⟩ := (hids.mem j).mp hj
          exact hne (h.only j hway hstate hja)
      rwa [Function.update_self, ← hkept] at herase
    rw [lruAccess, touch, herase, touch, map_cons, Function.update_self]
    apply take_of_length_le
    rw [length_cons, length_map]
    exact hrecent.length_le

/-- The victim of the sets is the line that is lost. -/
theorem Takes.victim (h : Takes cfg s a id) (hids : Recent cfg s (cfg.set a) ids) :
    LruSets.victim cfg.assoc a (ids.map s.array) =
      if s.state id = I ∨ s.array id = a then none else some (s.array id) := by
  unfold LruSets.victim
  have hmem : a ∈ ids.map s.array ↔ s.state id ≠ I ∧ s.array id = a := by
    constructor
    · intro hmem
      obtain ⟨j, hj, hja⟩ := mem_map.mp hmem
      obtain ⟨hway, hstate⟩ := (hids.mem j).mp hj
      obtain rfl := h.only j hway hstate hja
      exact ⟨hstate, hja⟩
    · rintro ⟨hstate, ha⟩
      exact mem_map.mpr ⟨id, (hids.mem id).mpr ⟨h.mem, hstate⟩, ha⟩
  simp only [hmem, length_map]
  by_cases hstate : s.state id = I
  · have hnot : id ∉ ids := fun hid => ((hids.mem id).mp hid).2 hstate
    have hsub : id :: ids ⊆ cfg.ways (cfg.set a) :=
      cons_subset.mpr ⟨h.mem, fun j hj => ((hids.mem j).mp hj).1⟩
    have hle := ((nodup_cons.mpr ⟨hnot, hids.nodup⟩).subperm hsub).length_le
    rw [cfg.length_ways, length_cons] at hle
    rw [if_pos (.inr hle), if_pos (.inl hstate)]
  · by_cases ha : s.array id = a
    · rw [if_pos (.inl ⟨hstate, ha⟩), if_pos (.inr ha)]
    · obtain ⟨hfull, hlast⟩ := h.last hstate ha ids hids
      rw [if_neg, if_neg, getLast?_map, hlast]
      · rfl
      · rintro (hI | hmem)
        · exact hstate hI
        · exact ha hmem
      · rintro (hmem | hlt)
        · exact ha hmem.2
        · omega

/-- Another line that the sets still have is still found. -/
theorem Refines.found_kept (h : Refines cfg s t) (hb : b ≠ a)
    (hkept : ¬(s.state id ≠ I ∧ s.array id = b)) (hvalid : t.state b ≠ I) :
    ∃ j, lookup cfg b (Function.update s.array id a) = some j ∧ j ≠ id ∧ s.state j = t.state b := by
  rw [h.state b] at hvalid ⊢
  cases hj : lookup cfg b s.array with
  | none => exact absurd (stateOf_none hj) hvalid
  | some j =>
    rw [stateOf_some hj] at hvalid ⊢
    have hjid : j ≠ id := by
      rintro rfl
      exact hkept ⟨hvalid, (lookup_some hj).2⟩
    exact ⟨j, lookup_kept hb hj hjid, hjid, rfl⟩

theorem Refines.taken (h : Refines cfg s t) (htakes : Takes cfg s a id) (hst : st ≠ I)
    (htime : s.rp.timestamp + 1 < 2 ^ 64) {state : Address → MESIState}
    (hstate : ∀ b ≠ a, state b = if s.state id ≠ I ∧ s.array id = b then I else t.state b) :
    Refines cfg (s.taken a id st sent)
      ⟨Function.update t.lines (cfg.set a) (lruAccess cfg.assoc a (t.lines (cfg.set a))),
        Function.update state a st, sent⟩ := by
  have hnow : (s.taken a id st sent).rp.timestamp = s.rp.timestamp + 1 := Nat.mod_eq_of_lt htime
  have harray : (s.taken a id st sent).rp.array =
      Function.update s.rp.array id s.rp.timestamp := update_array s.rp id
  have hother : ∀ {k j}, j ∈ cfg.ways k → j ≠ id → s.state j ≠ I →
      s.array j ≠ a ∧ lookup cfg (s.array j) (Function.update s.array id a) = some j := by
    intro k j hj hne hvalid
    obtain ⟨hset, hlookup⟩ := h.found k j hj hvalid
    have hja : s.array j ≠ a := by
      intro hja
      rw [hja] at hset
      exact hne (htakes.only j (hset ▸ hj) hvalid hja)
    exact ⟨hja, lookup_kept hja hlookup hne⟩
  refine ⟨rfl, fun j => ?_, fun k j hj hvalid => ?_, fun k j hj hvalid => ?_, fun k => ?_,
    fun b => ?_⟩
  · rw [hnow, harray, Function.update_apply]
    split
    · exact Nat.lt_succ_self _
    · exact (h.stamps j).trans (Nat.lt_succ_self _)
  · rw [harray]
    by_cases hne : j = id
    · rw [hne, Function.update_self]
      exact (Nat.zero_le _).trans_lt (h.stamps id)
    · rw [Function.update_of_ne hne]
      rw [Cache.taken_state, Function.update_of_ne hne] at hvalid
      exact h.updated k j hj hvalid
  · rw [Cache.taken_state] at hvalid
    rw [Cache.taken_array]
    by_cases hne : j = id
    · subst hne
      rw [Function.update_self]
      exact ⟨cfg.ways_unique htakes.mem hj, htakes.found⟩
    · rw [Function.update_of_ne hne] at hvalid ⊢
      exact ⟨(h.found k j hj hvalid).1, (hother hj hne hvalid).2⟩
  · obtain ⟨ids, hids, hlines⟩ := h.lines k
    dsimp only
    by_cases hk : k = cfg.set a
    · subst hk
      refine ⟨touch id ids, htakes.recent hids h.stamps hst, ?_⟩
      rw [Function.update_self, hlines]
      exact htakes.lines hids h.stamps
    · have hne : ∀ j ∈ cfg.ways k, j ≠ id := by
        rintro j hj rfl
        exact hk (cfg.ways_unique hj htakes.mem)
      refine ⟨ids, hids.congr fun j hj => ⟨Function.update_of_ne (hne j hj) .., ?_⟩, ?_⟩
      · rw [harray, Function.update_of_ne (hne j hj)]
      · rw [Function.update_of_ne hk, hlines]
        apply map_congr_left
        intro j hj
        exact (Function.update_of_ne (hne j ((hids.mem j).mp hj).1) ..).symm
  · unfold Cache.stateOf
    rw [Cache.taken_array, Cache.taken_state]
    dsimp only
    by_cases hb : b = a
    · rw [hb, htakes.found]
      dsimp only
      rw [Function.update_self, Function.update_self]
    · rw [Function.update_of_ne hb, hstate b hb]
      cases hj : lookup cfg b (Function.update s.array id a) with
      | none =>
        dsimp only
        split
        · rfl
        · next hkept =>
          by_contra hvalid
          obtain ⟨i, hi, -⟩ := h.found_kept hb hkept hvalid
          rw [hj] at hi
          cases hi
      | some j =>
        obtain ⟨hway, hjb⟩ := lookup_some hj
        have hne : j ≠ id := by
          rintro rfl
          rw [Function.update_self] at hjb
          exact hb hjb.symm
        rw [Function.update_of_ne hne] at hjb
        dsimp only
        rw [Function.update_of_ne hne]
        by_cases hkept : s.state id ≠ I ∧ s.array id = b
        · rw [if_pos hkept]
          by_contra hvalid
          have hid := (h.found _ id htakes.mem hkept.1).2
          rw [hkept.2, ← hjb] at hid
          exact hne (h.only hway (Ne.symm hvalid) hid)
        · rw [if_neg hkept]
          by_cases hvalid : t.state b = I
          · rw [hvalid]
            by_contra hI
            have hlookup := (h.found _ j hway (Ne.symm hI)).2
            rw [hjb] at hlookup
            rw [h.state b, stateOf_some hlookup] at hvalid
            exact hI hvalid.symm
          · obtain ⟨i, hi, -, hsame⟩ := h.found_kept hb hkept hvalid
            rw [hj] at hi
            rw [← hsame, Option.some.inj hi]

end

end Doppelganger.SetAssoc

import Doppelganger.Part.UMon
import Doppelganger.Lib.Links
import Doppelganger.Lib.LruStack

/-! The linked lists of a `UMon`, of `utility_monitor.cpp`.  The nodes of each set are chained in
the order of their last accesses, so that the position at which an address is found tells how many
ways an LRU set needs to hold it.  The lists of addresses of a `UMon` are refined by them. -/

namespace Doppelganger.Part

open Lib

/-- A `Node` of `array[set]`; `next` is the index of another, or null. -/
structure Node where
  addr : Address
  next : Option ℕ
deriving DecidableEq, Repr

/-- A `UMon`, with the nodes of its lists; `heads[set]` is the index of a node of `array[set]`. -/
structure UMonNodes where
  buckets : ℕ
  sets : ℕ
  samplingFactorBits : ℕ
  setsBits : ℕ
  curWayHits : ℕ → ℕ
  curMisses : ℕ
  array : ℕ → ℕ → Node
  heads : ℕ → ℕ

inductive UMonOp
  | access (lineAddr : Address)
  | startNextInterval
deriving DecidableEq, Repr

namespace UMonNodes

def init (bankLines umonLines buckets : ℕ) : Option UMonNodes :=
  if umonLines = 0 ∨ buckets = 0 then none
  else
    let samplingFactor := bankLines / umonLines
    let sets := umonLines / buckets
    some {
      buckets := buckets
      sets := sets
      samplingFactorBits := samplingFactor.log2
      setsBits := sets.log2
      curWayHits := fun _ => 0
      curMisses := 0
      array := fun _ j => ⟨0, if j < buckets - 1 then some (j + 1) else none⟩
      heads := fun _ => 0 }

/-- Where the loop that looks for `lineAddr` stops. -/
structure Found where
  hit : Bool
  b : ℕ
  prev : Option ℕ
  cur : ℕ

/-- The loop of `access`, with its iterations left. -/
def search (nodes : ℕ → Node) (lineAddr : Address) (buckets : ℕ) :
    ℕ → ℕ → Option ℕ → ℕ → Option Found
  | 0, b, prev, cur => some ⟨false, b, prev, cur⟩
  | n + 1, b, prev, cur =>
    if (nodes cur).addr = lineAddr then some ⟨true, b, prev, cur⟩
    else if b < buckets - 1 then
      (nodes cur).next.bind fun next => search nodes lineAddr buckets n (b + 1) (some cur) next
    else search nodes lineAddr buckets n (b + 1) prev cur

/-- `Move cur to MRU`: the nodes and the head. -/
def moveToFront (prev : Option ℕ) (cur : ℕ) (nodes : ℕ → Node) (head : ℕ) : (ℕ → Node) × ℕ :=
  match prev with
  | none => (nodes, head)
  | some prev =>
    let nodes := Function.update nodes prev { nodes prev with next := (nodes cur).next }
    (Function.update nodes cur { nodes cur with next := some head }, cur)

/-- The set of an address, when the address is sampled. -/
def sampledSet (hash : ℕ → Address → UInt64) (samplingFactorBits setsBits : ℕ)
    (lineAddr : Address) : Option ℕ :=
  let sampleSel := (hash 0 lineAddr).toNat % 2 ^ samplingFactorBits
  if sampleSel ≠ 0 then none else some ((hash 1 lineAddr).toNat % 2 ^ setsBits)

/-- An access to a set: `assert(cur->next == nullptr)` is for a miss. -/
def accessSet (set : ℕ) (lineAddr : Address) (s : UMonNodes) : Option UMonNodes :=
  let nodes := s.array set
  (search nodes lineAddr s.buckets s.buckets 0 none (s.heads set)).bind fun found =>
    if found.hit then
      let (nodes, head) := moveToFront found.prev found.cur nodes (s.heads set)
      some { s with
        curWayHits := Function.update s.curWayHits found.b (s.curWayHits found.b + 1)
        array := Function.update s.array set nodes
        heads := Function.update s.heads set head }
    else if (nodes found.cur).next = none then
      let nodes := Function.update nodes found.cur { nodes found.cur with addr := lineAddr }
      let (nodes, head) := moveToFront found.prev found.cur nodes (s.heads set)
      some { s with
        curMisses := s.curMisses + 1
        array := Function.update s.array set nodes
        heads := Function.update s.heads set head }
    else none

/-- An access, with the two functions of the hash family. -/
def access (hash : ℕ → Address → UInt64) (lineAddr : Address) (s : UMonNodes) :
    Option UMonNodes :=
  match sampledSet hash s.samplingFactorBits s.setsBits lineAddr with
  | none => some s
  | some set => if set < s.sets then s.accessSet set lineAddr else none

/-- The loop of `getMisses`, with its iterations left: the entries of `misses` from `n` down. -/
def getMissesFrom (curWayHits : ℕ → ℕ) : ℕ → ℕ → (ℕ → ℕ) → (ℕ → ℕ)
  | 0, total, misses => Function.update misses 0 total
  | n + 1, total, misses =>
    getMissesFrom curWayHits n (total + curWayHits n) (Function.update misses (n + 1) total)

/-- The entries that `getMisses` writes. -/
def getMisses (s : UMonNodes) : ℕ → ℕ :=
  getMissesFrom s.curWayHits s.buckets s.curMisses fun _ => 0

def startNextInterval (s : UMonNodes) : UMonNodes :=
  { s with
    curMisses := 0
    curWayHits := fun b => if b < s.buckets then 0 else s.curWayHits b }

def step (hash : ℕ → Address → UInt64) : UMonOp → UMonNodes → Option UMonNodes
  | .access lineAddr, s => s.access hash lineAddr
  | .startNextInterval, s => some s.startNextInterval

/-! ### LRU sets -/

/-- A cache of `w` ways that sees the sampled accesses, and counts its misses from the start of each
interval. -/
def lruStep (sample : Address → Option ℕ) (w : ℕ) (c : LruCache Address) :
    UMonOp → LruCache Address
  | .access lineAddr =>
    match sample lineAddr with
    | none => c
    | some set => c.access w set lineAddr
  | .startNextInterval => { c with misses := 0 }

/-- The misses of the last interval, in a cache of `w` ways that has seen all of `ops`. -/
def lruMisses (sample : Address → Option ℕ) (w : ℕ) (ops : List UMonOp) : ℕ :=
  (ops.foldl (lruStep sample w) ⟨fun _ => [], 0⟩).misses

variable {nodes nodes' : ℕ → Node} {lineAddr : Address} {buckets n b cur head : ℕ}
  {prev : Option ℕ} {l pre post : List ℕ}

/-! ### One list -/

/-- The nodes of `l` are chained from `head` on, and these are all. -/
structure Chain (nodes : ℕ → Node) (head buckets : ℕ) (l : List ℕ) : Prop where
  follows : Follows (fun i => (nodes i).next) (some head) l
  perm : l.Perm (List.range buckets)

/-- The addresses of the nodes of `l`. -/
def addrs (nodes : ℕ → Node) (l : List ℕ) : List Address := l.map fun i => (nodes i).addr

theorem addrs_split (nodes : ℕ → Node) (pre : List ℕ) (cur : ℕ) (post : List ℕ) :
    addrs nodes (pre ++ cur :: post) =
      addrs nodes pre ++ (nodes cur).addr :: addrs nodes post := by
  rw [addrs, List.map_append, List.map_cons]
  rfl

theorem addrs_congr (h : ∀ i ∈ l, (nodes' i).addr = (nodes i).addr) :
    addrs nodes' l = addrs nodes l :=
  List.map_congr_left h

/-- Where the loop stops in the rest `cur :: l` of the list. -/
structure Stops (nodes : ℕ → Node) (lineAddr : Address) (b : ℕ) (prev : Option ℕ) (l : List ℕ)
    (found : Found) (pre post : List ℕ) : Prop where
  split : l = pre ++ found.cur :: post
  before : ∀ i ∈ pre, (nodes i).addr ≠ lineAddr
  prev : found.prev = pre.getLast?.or prev
  hit : found.hit = true → (nodes found.cur).addr = lineAddr ∧ found.b = b + pre.length
  miss : found.hit = false → (nodes found.cur).addr ≠ lineAddr ∧ post = []

theorem search_spec (hfollows : Follows (fun i => (nodes i).next) (some cur) (cur :: l))
    (hlength : b + (l.length + 1) = buckets) :
    ∃ found pre post, search nodes lineAddr buckets (l.length + 1) b prev cur = some found ∧
      Stops nodes lineAddr b prev (cur :: l) found pre post := by
  induction l generalizing b prev cur with
  | nil =>
    unfold search
    by_cases haddr : (nodes cur).addr = lineAddr
    · rw [if_pos haddr]
      exact ⟨_, [], [], rfl, rfl, fun i hi => absurd hi List.not_mem_nil, rfl,
        fun _ => ⟨haddr, rfl⟩, fun hmiss => nomatch hmiss⟩
    · rw [if_neg haddr, if_neg (by rw [List.length_nil] at hlength; omega)]
      exact ⟨_, [], [], rfl, rfl, fun i hi => absurd hi List.not_mem_nil, rfl,
        fun hhit => (nomatch hhit), fun _ => ⟨haddr, rfl⟩⟩
  | cons next l ih =>
    rw [List.length_cons] at hlength
    rw [List.length_cons, search]
    by_cases haddr : (nodes cur).addr = lineAddr
    · rw [if_pos haddr]
      exact ⟨_, [], next :: l, rfl, rfl, fun i hi => absurd hi List.not_mem_nil, rfl,
        fun _ => ⟨haddr, rfl⟩, fun hmiss => nomatch hmiss⟩
    · have hnext : (nodes cur).next = some next := hfollows.2.1
      have hrest : Follows (fun i => (nodes i).next) (some next) (next :: l) :=
        ⟨rfl, hfollows.2.2⟩
      rw [if_neg haddr, if_pos (by omega), hnext, Option.bind_some]
      obtain ⟨found, pre, post, hfound, hsplit, hbefore, hprev, hhit, hmiss⟩ :=
        @ih (b + 1) next (some cur) hrest (by omega)
      refine ⟨found, cur :: pre, post, hfound, by rw [hsplit]; rfl, ?_, ?_, ?_, hmiss⟩
      · intro i hi
        rcases List.mem_cons.mp hi with rfl | hi
        · exact haddr
        · exact hbefore i hi
      · rw [hprev, List.getLast?_cons]
        cases pre.getLast? with
        | none => rfl
        | some p => rfl
      · intro h
        obtain ⟨h1, h2⟩ := hhit h
        exact ⟨h1, by rw [h2, List.length_cons]; omega⟩

/-- A node goes to the front of the list, and its address with it. -/
theorem moveToFront_spec (h : Chain nodes head buckets l) (hsplit : l = pre ++ cur :: post) :
    Chain (moveToFront pre.getLast? cur nodes head).1 (moveToFront pre.getLast? cur nodes head).2
        buckets (cur :: (pre ++ post)) ∧
      ∀ i, ((moveToFront pre.getLast? cur nodes head).1 i).addr = (nodes i).addr := by
  obtain ⟨hfollows, hperm⟩ := h
  rw [hsplit] at hfollows hperm
  have hperm' : (cur :: (pre ++ post)).Perm (List.range buckets) :=
    List.perm_middle.symm.trans hperm
  have hnodup : (pre ++ cur :: post).Nodup := hperm.nodup_iff.mpr List.nodup_range
  rcases List.eq_nil_or_concat pre with rfl | ⟨a, p, rfl⟩
  · exact ⟨⟨hfollows, hperm'⟩, fun i => rfl⟩
  · rw [List.concat_eq_append] at hfollows hnodup hperm' ⊢
    rw [List.getLast?_concat]
    rw [List.append_assoc] at hfollows hnodup
    have hne : cur ≠ p := by
      rintro rfl
      exact (List.nodup_cons.mp (List.nodup_append.mp hnodup).2.1).1 List.mem_cons_self
    have hold : ∀ y, y ≠ p → y ≠ cur → (moveToFront (some p) cur nodes head).1 y = nodes y := by
      intro y hy hy'
      simp only [moveToFront, Function.update_of_ne hy', Function.update_of_ne hy]
    have hp : (moveToFront (some p) cur nodes head).1 p =
        { nodes p with next := (nodes cur).next } := by
      simp only [moveToFront, Function.update_of_ne (Ne.symm hne), Function.update_self]
    have hcur : (moveToFront (some p) cur nodes head).1 cur =
        { nodes cur with next := some head } := by
      simp only [moveToFront, Function.update_self, Function.update_of_ne hne]
    refine ⟨⟨⟨rfl, ?_⟩, hperm'⟩, fun i => ?_⟩
    · dsimp only
      rw [hcur, List.append_assoc]
      exact hfollows.unlink hnodup (by rw [hp]) fun y hy hy' => by rw [hold y hy hy']
    · by_cases hi : i = cur
      · rw [hi, hcur]
      · by_cases hi' : i = p
        · rw [hi', hp]
        · rw [hold i hi' hi]

/-- The last node gets a new address and keeps its place. -/
theorem rename_spec (h : Chain nodes head buckets (pre ++ [cur])) (lineAddr : Address) :
    Chain (Function.update nodes cur { nodes cur with addr := lineAddr }) head buckets
        (pre ++ [cur]) ∧
      addrs (Function.update nodes cur { nodes cur with addr := lineAddr }) pre =
        addrs nodes pre := by
  constructor
  · refine ⟨h.follows.congr fun i _ => ?_, h.perm⟩
    dsimp only
    by_cases hi : i = cur
    · rw [hi, Function.update_self]
    · rw [Function.update_of_ne hi]
  · apply addrs_congr
    intro i hi
    have hnodup := h.perm.nodup_iff.mpr List.nodup_range
    rw [List.nodup_append] at hnodup
    rw [Function.update_of_ne (hnodup.2.2 i hi cur List.mem_cons_self)]

/-- The bookkeeping of an access, with the list before and after it. -/
theorem accessSet_spec {s : UMonNodes} {set : ℕ} (hpos : 0 < s.buckets)
    (h : Chain (s.array set) (s.heads set) s.buckets l) (lineAddr : Address) :
    ∃ nodes head l' b,
      s.accessSet set lineAddr = some { s with
        curWayHits := if lineAddr ∈ addrs (s.array set) l then
          Function.update s.curWayHits b (s.curWayHits b + 1) else s.curWayHits
        curMisses := if lineAddr ∈ addrs (s.array set) l then s.curMisses else s.curMisses + 1
        array := Function.update s.array set nodes
        heads := Function.update s.heads set head } ∧
      Chain nodes head s.buckets l' ∧
      addrs nodes l' = lruAccess s.buckets lineAddr (addrs (s.array set) l) ∧
      (lineAddr ∈ addrs (s.array set) l → b = (addrs (s.array set) l).idxOf lineAddr) := by
  have hlength : l.length = s.buckets := by rw [h.perm.length_eq, List.length_range]
  obtain ⟨cur, rest, rfl⟩ := List.exists_cons_of_length_pos (by omega : 0 < l.length)
  have hhead : s.heads set = cur := Option.some.inj h.follows.1
  have hfuel : rest.length + 1 = s.buckets := hlength
  obtain ⟨found, pre, post, hfound, hsplit, hbefore, hprev, hhit, hmiss⟩ :=
    @search_spec (s.array set) lineAddr s.buckets 0 cur none rest (hhead ▸ h.follows) (by omega)
  rw [hfuel, ← hhead] at hfound
  rw [Option.or_none] at hprev
  generalize cur :: rest = l at h hlength hsplit
  have hA : addrs (s.array set) l = addrs (s.array set) pre ++
      (s.array set found.cur).addr :: addrs (s.array set) post := by
    rw [hsplit, addrs_split]
  have hlengthA : (addrs (s.array set) l).length = s.buckets := by
    rw [addrs, List.length_map, hlength]
  have hpre : lineAddr ∉ addrs (s.array set) pre := by
    intro hmem
    obtain ⟨i, hi, heq⟩ := List.mem_map.mp hmem
    exact hbefore i hi heq
  unfold accessSet
  dsimp only
  rw [hfound, Option.bind_some, hprev]
  cases hfh : found.hit with
  | true =>
    obtain ⟨haddr, hb⟩ := hhit hfh
    obtain ⟨hchain, hsame⟩ := moveToFront_spec h hsplit
    have hmem : lineAddr ∈ addrs (s.array set) l := by
      rw [hA, haddr]
      exact List.mem_append_right _ List.mem_cons_self
    refine ⟨_, _, _, found.b, ?_, hchain, ?_, fun _ => ?_⟩
    · rw [if_pos rfl, if_pos hmem, if_pos hmem]
    · rw [lruAccess_of_mem hlengthA hmem, hA, haddr, List.erase_append_right _ hpre,
        List.erase_cons_head, addrs_congr fun i _ => hsame i, addrs, List.map_cons, haddr,
        List.map_append]
      rfl
    · rw [hA, haddr, List.idxOf_append_of_notMem hpre, List.idxOf_cons_self, hb, addrs,
        List.length_map, Nat.zero_add, Nat.add_zero]
  | false =>
    obtain ⟨haddr, rfl⟩ := hmiss hfh
    have hnext : (s.array set found.cur).next = none := by
      have hmid := h.follows
      rw [hsplit] at hmid
      exact hmid.mid.2
    have hnot : lineAddr ∉ addrs (s.array set) l := by
      rw [hA, List.mem_append]
      rintro (hmem | hmem)
      · exact hpre hmem
      · exact haddr (List.mem_singleton.mp hmem).symm
    obtain ⟨hrenamed, haddrs⟩ := rename_spec (hsplit ▸ h) lineAddr
    obtain ⟨hchain, hsame⟩ := moveToFront_spec hrenamed rfl
    refine ⟨_, _, _, 0, ?_, hchain, ?_, fun hmem => absurd hmem hnot⟩
    · rw [if_neg Bool.false_ne_true, if_pos hnext, if_neg hnot, if_neg hnot]
    · rw [lruAccess_of_not_mem hlengthA hpos hnot, hA, addrs_congr fun i _ => hsame i,
        List.append_nil, ← haddrs]
      refine Eq.trans ?_ (congrArg _ List.dropLast_concat.symm)
      rw [addrs, List.map_cons, Function.update_self]
      rfl

/-! ### The curve -/

/-- The accesses of the interval that missed or were found at `w` or further down. -/
def missesAt (s : UMonNodes) (w : ℕ) : ℕ :=
  s.curMisses + ∑ b ∈ Finset.Ico w s.buckets, s.curWayHits b

theorem getMissesFrom_spec (curWayHits : ℕ → ℕ) (n total : ℕ) (misses : ℕ → ℕ) (w : ℕ) :
    getMissesFrom curWayHits n total misses w =
      if w ≤ n then total + ∑ b ∈ Finset.Ico w n, curWayHits b else misses w := by
  induction n generalizing total misses with
  | zero =>
    unfold getMissesFrom
    by_cases hw : w = 0
    · rw [hw, Function.update_self, if_pos (Nat.le_refl 0), Finset.Ico_self, Finset.sum_empty,
        Nat.add_zero]
    · rw [Function.update_of_ne hw, if_neg (by omega)]
  | succ n ih =>
    rw [getMissesFrom, ih]
    by_cases hw : w ≤ n
    · rw [if_pos hw, if_pos (by omega), Finset.sum_Ico_succ_top hw]
      omega
    · rw [if_neg hw]
      by_cases hlast : w = n + 1
      · rw [hlast, Function.update_self, if_pos (Nat.le_refl _), Finset.Ico_self, Finset.sum_empty,
          Nat.add_zero]
      · rw [Function.update_of_ne hlast, if_neg (by omega)]

theorem getMisses_eq (s : UMonNodes) {w : ℕ} (hw : w ≤ s.buckets) :
    s.getMisses w = s.missesAt w := by
  rw [getMisses, getMissesFrom_spec, if_pos hw]
  rfl

theorem missesAt_anti (s : UMonNodes) {w w' : ℕ} (h : w ≤ w') : s.missesAt w' ≤ s.missesAt w := by
  apply Nat.add_le_add_left
  apply Finset.sum_le_sum_of_subset
  exact Finset.Ico_subset_Ico_left h

/-- A hit at `b` counts for the sets of `b` ways and fewer. -/
theorem sum_hits (curWayHits : ℕ → ℕ) (w b n : ℕ) (hb : b < n) :
    ∑ i ∈ Finset.Ico w n, Function.update curWayHits b (curWayHits b + 1) i =
      ∑ i ∈ Finset.Ico w n, curWayHits i + if w ≤ b then 1 else 0 := by
  by_cases hw : w ≤ b
  · have hmem : b ∈ Finset.Ico w n := Finset.mem_Ico.mpr ⟨hw, hb⟩
    have hrest : ∑ i ∈ (Finset.Ico w n).erase b,
        Function.update curWayHits b (curWayHits b + 1) i =
          ∑ i ∈ (Finset.Ico w n).erase b, curWayHits i := by
      apply Finset.sum_congr rfl
      intro i hi
      rw [Function.update_of_ne (Finset.ne_of_mem_erase hi)]
    rw [if_pos hw, ← Finset.add_sum_erase _ _ hmem, ← Finset.add_sum_erase _ curWayHits hmem, hrest,
      Function.update_self]
    omega
  · rw [if_neg hw, Nat.add_zero]
    apply Finset.sum_congr rfl
    intro i hi
    have hne : i ≠ b := by
      have := (Finset.mem_Ico.mp hi).1
      omega
    rw [Function.update_of_ne hne]

/-! ### Runs -/

/-- The list of set `set` holds the stack of which the sets of all widths hold the tops. -/
def Holds (s : UMonNodes) (c : ℕ → LruCache Address) (set : ℕ) : Prop :=
  ∃ stack l, (∀ w, (c w).sets set = stack.take w) ∧
    Chain (s.array set) (s.heads set) s.buckets l ∧
    addrs (s.array set) l = padded 0 s.buckets stack

/-- The lists agree with the caches of all widths, and the counters with their misses. -/
structure Agrees (hash : ℕ → Address → UInt64) (sample : Address → Option ℕ) (buckets : ℕ)
    (s : UMonNodes) (c : ℕ → LruCache Address) : Prop where
  sample : sampledSet hash s.samplingFactorBits s.setsBits = sample
  buckets : s.buckets = buckets
  sets : 2 ^ s.setsBits ≤ s.sets
  lists : ∀ set, Holds s c set
  misses : ∀ w ≤ s.buckets, (c w).misses = s.missesAt w

variable {hash : ℕ → Address → UInt64} {sample : Address → Option ℕ} {s : UMonNodes}
  {c : ℕ → LruCache Address}

theorem missesAt_access {set : ℕ} {stack : List Address} {nodes' : ℕ → ℕ → Node} {heads' : ℕ → ℕ}
    {w : ℕ} (ha : lineAddr ≠ 0) (hw : w ≤ s.buckets)
    (haddrs : addrs (s.array set) l = padded 0 s.buckets stack)
    (hb : lineAddr ∈ addrs (s.array set) l → b = (addrs (s.array set) l).idxOf lineAddr) :
    missesAt { s with
        curWayHits := if lineAddr ∈ addrs (s.array set) l then
          Function.update s.curWayHits b (s.curWayHits b + 1) else s.curWayHits
        curMisses := if lineAddr ∈ addrs (s.array set) l then s.curMisses else s.curMisses + 1
        array := nodes'
        heads := heads' } w =
      if lineAddr ∈ stack.take w then s.missesAt w else s.missesAt w + 1 := by
  have htake : lineAddr ∈ stack.take w ↔ lineAddr ∈ (addrs (s.array set) l).take w := by
    rw [haddrs]
    exact mem_take_iff_mem_padded ha hw stack
  unfold missesAt
  dsimp only
  by_cases hmem : lineAddr ∈ addrs (s.array set) l
  · have hlt : b < s.buckets := by
      have hlength : (addrs (s.array set) l).length = s.buckets := by
        rw [haddrs, length_padded]
      rw [hb hmem, ← hlength]
      exact List.idxOf_lt_length_of_mem hmem
    rw [if_pos hmem, if_pos hmem, sum_hits _ _ _ _ hlt]
    by_cases htop : lineAddr ∈ (addrs (s.array set) l).take w
    · have hdeep : ¬ w ≤ b := by
        have := (List.mem_take_iff_idxOf_lt hmem).mp htop
        rw [hb hmem]
        omega
      rw [if_pos (htake.mpr htop), if_neg hdeep, Nat.add_zero]
    · have hdeep : w ≤ b := by
        rw [hb hmem]
        exact Nat.le_of_not_lt fun hlt => htop ((List.mem_take_iff_idxOf_lt hmem).mpr hlt)
      rw [if_neg fun htop' => htop (htake.mp htop'), if_pos hdeep]
      omega
  · have hnot : lineAddr ∉ stack.take w := fun htop => hmem (List.mem_of_mem_take (htake.mp htop))
    rw [if_neg hmem, if_neg hmem, if_neg hnot]
    omega

theorem accessSet_agrees {set : ℕ} (hpos : 0 < buckets) (ha : lineAddr ≠ 0)
    (h : Agrees hash sample buckets s c) :
    ∃ s', s.accessSet set lineAddr = some s' ∧
      Agrees hash sample buckets s' (fun w => (c w).access w set lineAddr) := by
  have hbuckets := h.buckets
  obtain ⟨stack, l, hstack, hchain, haddrs⟩ := h.lists set
  obtain ⟨nodes', head', l', b, heq, hchain', haddrs', hb⟩ :=
    accessSet_spec (by omega) hchain lineAddr
  refine ⟨_, heq, ?_⟩
  constructor
  case sample => exact h.sample
  case buckets => exact h.buckets
  case sets => exact h.sets
  case lists =>
    intro set'
    by_cases hset : set' = set
    · refine ⟨touch lineAddr stack, l', fun w => ?_, ?_, ?_⟩
      · rw [hset, LruCache.access_sets_self, hstack, lruAccess_take]
      · dsimp only
        rw [hset, Function.update_self, Function.update_self]
        exact hchain'
      · dsimp only
        rw [hset, Function.update_self, haddrs', haddrs, lruAccess_padded ha]
    · obtain ⟨stack', l'', hstack', hchain'', haddrs''⟩ := h.lists set'
      refine ⟨stack', l'', fun w => ?_, ?_, ?_⟩
      · rw [LruCache.access_sets_of_ne _ hset, hstack']
      · dsimp only
        rw [Function.update_of_ne hset, Function.update_of_ne hset]
        exact hchain''
      · dsimp only
        rw [Function.update_of_ne hset]
        exact haddrs''
  case misses =>
    intro w hw
    rw [missesAt_access (s := s) ha hw haddrs hb, LruCache.access_misses, hstack, h.misses w hw]

theorem startNextInterval_agrees (h : Agrees hash sample buckets s c) :
    Agrees hash sample buckets s.startNextInterval (fun w => { c w with misses := 0 }) := by
  constructor
  case sample => exact h.sample
  case buckets => exact h.buckets
  case sets => exact h.sets
  case lists => exact h.lists
  case misses =>
    intro w hw
    have hzero : ∑ b ∈ Finset.Ico w s.buckets, (if b < s.buckets then 0 else s.curWayHits b) = 0 :=
      Finset.sum_eq_zero fun b hb => if_pos (Finset.mem_Ico.mp hb).2
    exact hzero.symm.trans (Nat.zero_add _).symm

/-- The constants of the sampling put every sampled access in a set. -/
theorem sampledSet_lt {samplingFactorBits setsBits set : ℕ}
    (h : sampledSet hash samplingFactorBits setsBits lineAddr = some set) :
    set < 2 ^ setsBits := by
  unfold sampledSet at h
  dsimp only at h
  split at h
  · nomatch h
  · rw [← Option.some.inj h]
    exact Nat.mod_lt _ (Nat.two_pow_pos _)

theorem step_agrees (op : UMonOp) (hpos : 0 < buckets)
    (hop : ∀ lineAddr, op = .access lineAddr → lineAddr ≠ 0)
    (h : Agrees hash sample buckets s c) :
    ∃ s', step hash op s = some s' ∧
      Agrees hash sample buckets s' (fun w => lruStep sample w (c w) op) := by
  cases op with
  | startNextInterval => exact ⟨_, rfl, startNextInterval_agrees h⟩
  | access lineAddr =>
    unfold step access lruStep
    dsimp only
    rw [h.sample]
    cases hsample : sample lineAddr with
    | none => exact ⟨s, rfl, h⟩
    | some set =>
      have hlt : set < s.sets := (sampledSet_lt (h.sample ▸ hsample)).trans_le h.sets
      dsimp only
      rw [if_pos hlt]
      exact accessSet_agrees hpos (hop lineAddr rfl) h

theorem run_agrees {ops : List UMonOp} (hpos : 0 < buckets)
    (hops : ∀ lineAddr, .access lineAddr ∈ ops → lineAddr ≠ 0)
    (h : Agrees hash sample buckets s c) :
    ∃ s', run (step hash) ops s = some s' ∧
      Agrees hash sample buckets s' (fun w => ops.foldl (lruStep sample w) (c w)) := by
  induction ops generalizing s c with
  | nil => exact ⟨s, rfl, h⟩
  | cons op ops ih =>
    obtain ⟨s1, h1, hagrees⟩ := step_agrees op hpos
      (fun a ha => hops a (ha ▸ List.mem_cons_self)) h
    obtain ⟨s2, h2, hlast⟩ := ih (fun a ha => hops a (List.mem_cons_of_mem _ ha)) hagrees
    exact ⟨s2, by rw [run, h1]; exact h2, hlast⟩

/-! ### The constructor -/

theorem follows_init (m n k : ℕ) (h : n + k = m) :
    Follows (fun j => if j < m then some (j + 1) else none) (some n)
      (List.range' n (k + 1)) := by
  induction k generalizing n with
  | zero =>
    refine ⟨rfl, ?_⟩
    exact if_neg (by omega)
  | succ k ih =>
    rw [List.range'_succ]
    refine ⟨rfl, ?_⟩
    dsimp only
    rw [if_pos (by omega)]
    exact ih (n + 1) (by omega)

/-- The nodes of a set that the constructor chains, without addresses. -/
theorem chain_init (hpos : 0 < buckets) :
    Chain (fun j => ⟨0, if j < buckets - 1 then some (j + 1) else none⟩) 0 buckets
      (List.range buckets) := by
  refine ⟨?_, List.Perm.refl _⟩
  have hchain := follows_init (buckets - 1) 0 (buckets - 1) (by omega)
  rw [Nat.sub_add_cancel hpos, ← List.range_eq_range'] at hchain
  exact hchain.congr fun j _ => rfl

theorem addrs_init (next : ℕ → Option ℕ) (n : ℕ) :
    addrs (fun j => ⟨0, next j⟩) (List.range n) = List.replicate n 0 := by
  rw [addrs, List.map_const', List.length_range]

theorem init_agrees {bankLines umonLines : ℕ} (hpos : 0 < buckets) (hle : buckets ≤ umonLines) :
    ∃ s, init bankLines umonLines buckets = some s ∧
      Agrees hash (sampledSet hash (bankLines / umonLines).log2 (umonLines / buckets).log2) buckets
        s (fun _ => ⟨fun _ => [], 0⟩) := by
  unfold init
  rw [if_neg (by omega)]
  refine ⟨_, rfl, ?_⟩
  constructor
  case sample => rfl
  case buckets => rfl
  case sets =>
    have hsets : 0 < umonLines / buckets := Nat.div_pos hle hpos
    exact Nat.log2_self_le (by omega)
  case lists =>
    intro set
    refine ⟨[], List.range buckets, fun w => List.take_nil.symm, chain_init hpos, ?_⟩
    rw [padded, List.nil_append, List.take_of_length_le (by simp), addrs_init]
  case misses =>
    intro w hw
    exact (Finset.sum_eq_zero fun b _ => rfl).symm.trans (Nat.zero_add _).symm

/-- The counters of a `UMon` give, for every width up to `buckets`, the misses of LRU sets of that
width that see the same sampled accesses; and no list loses a node. -/
theorem getMisses_eq_lruMisses (hash : ℕ → Address → UInt64) (bankLines umonLines buckets : ℕ)
    (ops : List UMonOp) (hpos : 0 < buckets) (hle : buckets ≤ umonLines)
    (hops : ∀ lineAddr, .access lineAddr ∈ ops → lineAddr ≠ 0) :
    ∃ s₀ s, init bankLines umonLines buckets = some s₀ ∧ run (step hash) ops s₀ = some s ∧
      (∀ w ≤ buckets, s.getMisses w = lruMisses (sampledSet hash (bankLines / umonLines).log2
        (umonLines / buckets).log2) w ops) ∧
      (∀ w w', w ≤ w' → w' ≤ buckets → s.getMisses w' ≤ s.getMisses w) ∧
      ∀ set, ∃ l, Chain (s.array set) (s.heads set) buckets l := by
  obtain ⟨s₀, hinit, hstart⟩ := @init_agrees buckets hash bankLines umonLines hpos hle
  obtain ⟨s, hrun, hlast⟩ := run_agrees hpos hops hstart
  have hbuckets : s.buckets = buckets := hlast.buckets
  refine ⟨s₀, s, hinit, hrun, ?_, ?_, ?_⟩
  · intro w hw
    rw [← hbuckets] at hw
    rw [s.getMisses_eq hw, ← hlast.misses w hw]
    rfl
  · intro w w' hww' hw'
    rw [← hbuckets] at hw'
    rw [s.getMisses_eq hw', s.getMisses_eq (hww'.trans hw')]
    exact s.missesAt_anti hww'
  · intro set
    obtain ⟨-, l, -, hchain, -⟩ := hlast.lists set
    exact ⟨l, hbuckets ▸ hchain⟩

theorem getMisses_eq_lruMisses_small : (0 < 2 ∧ 2 ≤ 4) ∧
    ∃ s₀ s, init 4 4 2 = some s₀ ∧
      run (step fun _ lineAddr => lineAddr)
        [.access 1, .access 3, .access 1, .startNextInterval, .access 5, .access 3, .access 2]
        s₀ = some s ∧
      (∀ w ≤ 2, s.getMisses w =
        lruMisses (sampledSet (fun _ lineAddr => lineAddr) (4 / 4 : ℕ).log2
          (4 / 2 : ℕ).log2) w [.access 1, .access 3, .access 1, .startNextInterval, .access 5,
            .access 3, .access 2]) ∧
      (∀ w w', w ≤ w' → w' ≤ 2 → s.getMisses w' ≤ s.getMisses w) ∧
      ∀ set, ∃ l, Chain (s.array set) (s.heads set) 2 l :=
  ⟨⟨by decide, by decide⟩, getMisses_eq_lruMisses _ 4 4 2 _ (by decide) (by decide) (by simp)⟩

example : lruMisses (fun _ => some 0) 2 [.access 1, .access 3, .startNextInterval, .access 1,
    .access 5, .access 3] = 2 := by decide

/-! ### Sets as lists -/

/-- The lists of a monitor are the addresses of the nodes in the order of the chains, and its
counters are the same in 64 bits. -/
structure Refines (s : UMonNodes) (umon : UMon) : Prop where
  buckets : umon.buckets = s.buckets
  samplingFactorBits : umon.samplingFactorBits = s.samplingFactorBits
  setsBits : umon.setsBits = s.setsBits
  curWayHits : umon.curWayHits = (List.range s.buckets).map fun b => UInt64.ofNat (s.curWayHits b)
  curMisses : umon.curMisses = UInt64.ofNat s.curMisses
  length : umon.heads.length = s.sets
  lists : ∀ set < s.sets, ∃ l, Chain (s.array set) (s.heads set) s.buckets l ∧
    umon.heads[set]? = some (addrs (s.array set) l)

variable {umon : UMon}

theorem modify_hits (hits : ℕ → ℕ) (n b : ℕ) :
    ((List.range n).map fun i => UInt64.ofNat (hits i)).modify b (· + 1) =
      (List.range n).map fun i => UInt64.ofNat (Function.update hits b (hits b + 1) i) := by
  refine List.ext_getElem (by simp) fun i hi hi' => ?_
  rw [List.getElem_modify, List.getElem_map, List.getElem_map, List.getElem_range]
  by_cases hib : b = i
  · rw [if_pos hib, hib, Function.update_self, UInt64.ofNat_add]
    rfl
  · rw [if_neg hib, Function.update_of_ne (Ne.symm hib)]

/-- One list changes. -/
theorem Refines.relist {set : ℕ} (h : Refines s umon) (hset : set < s.sets)
    (hchain : Chain nodes' head s.buckets l) : ∀ set' < s.sets,
      ∃ l', Chain (Function.update s.array set nodes' set') (Function.update s.heads set head set')
          s.buckets l' ∧
        (umon.heads.set set (addrs nodes' l))[set']? =
          some (addrs (Function.update s.array set nodes' set') l') := by
  intro set' hset'
  by_cases hne : set' = set
  · subst hne
    rw [Function.update_self, Function.update_self, List.getElem?_set_self (h.length ▸ hset)]
    exact ⟨l, hchain, rfl⟩
  · rw [Function.update_of_ne hne, Function.update_of_ne hne, List.getElem?_set_ne (Ne.symm hne)]
    exact h.lists set' hset'

theorem Refines.access (h : Refines s umon) (hpos : 0 < s.buckets) (lineAddr : Address) :
    Option.Rel (fun s' umon' => Refines s' umon' ∧ s'.buckets = s.buckets)
      (s.access hash lineAddr) (umon.access hash lineAddr) := by
  unfold UMonNodes.access UMon.access sampledSet
  dsimp only
  rw [h.samplingFactorBits, h.setsBits]
  by_cases hsel : (hash 0 lineAddr).toNat % 2 ^ s.samplingFactorBits ≠ 0
  · rw [if_pos hsel, if_pos hsel]
    exact .some ⟨h, rfl⟩
  rw [if_neg hsel, if_neg hsel]
  dsimp only
  generalize (hash 1 lineAddr).toNat % 2 ^ s.setsBits = set
  by_cases hset : set < s.sets
  · obtain ⟨l, hchain, hnodes⟩ := h.lists set hset
    obtain ⟨nodes', head', l', b, heq, hchain', haddrs', hb⟩ :=
      accessSet_spec hpos hchain lineAddr
    have hlength : (addrs (s.array set) l).length = s.buckets := by
      rw [addrs, List.length_map, hchain.perm.length_eq, List.length_range]
    have hlists := h.relist hset hchain'
    rw [haddrs'] at hlists
    rw [if_pos hset, heq, hnodes, Option.map_some]
    refine .some ⟨?_, rfl⟩
    by_cases hmem : lineAddr ∈ addrs (s.array set) l
    · rw [lruAccess_of_mem hlength hmem, List.erase_eq_eraseIdx_of_idxOf rfl] at hlists
      obtain rfl := hb hmem
      rw [if_pos hmem, if_pos hmem, if_pos hmem]
      exact ⟨h.buckets, rfl, rfl,
        (congrArg (List.modify · _ _) h.curWayHits).trans (modify_hits ..), h.curMisses,
        List.length_set.trans h.length, hlists⟩
    · rw [lruAccess_of_not_mem hlength hpos hmem] at hlists
      rw [if_neg hmem, if_neg hmem, if_neg hmem]
      exact ⟨h.buckets, rfl, rfl, h.curWayHits,
        (congrArg (· + 1) h.curMisses).trans (UInt64.ofNat_add ..).symm,
        List.length_set.trans h.length, hlists⟩
  · rw [if_neg hset, List.getElem?_eq_none (by rw [h.length]; exact Nat.le_of_not_lt hset)]
    exact .none

theorem Refines.startNextInterval (h : Refines s umon) :
    Refines s.startNextInterval umon.startNextInterval := by
  have hhits : List.replicate umon.buckets (0 : UInt64) = (List.range s.buckets).map fun b =>
      UInt64.ofNat (if b < s.buckets then 0 else s.curWayHits b) := by
    rw [h.buckets]
    refine (List.eq_replicate_iff.mpr ⟨by simp, fun hits hmem => ?_⟩).symm
    obtain ⟨b, hb, rfl⟩ := List.mem_map.mp hmem
    rw [if_pos (List.mem_range.mp hb)]
    rfl
  exact ⟨h.buckets, h.samplingFactorBits, h.setsBits, hhits, rfl, h.length, h.lists⟩

end UMonNodes

/-- The operations of a monitor, on lists. -/
def UMon.step (hash : ℕ → Address → UInt64) : UMonOp → UMon → Option UMon
  | .access lineAddr, umon => umon.access hash lineAddr
  | .startNextInterval, umon => some umon.startNextInterval

namespace UMonNodes

variable {s : UMonNodes} {umon : UMon}

theorem Refines.step (h : Refines s umon) (hpos : 0 < s.buckets)
    (hash : ℕ → Address → UInt64) (op : UMonOp) :
    Option.Rel (fun s' umon' => Refines s' umon' ∧ s'.buckets = s.buckets)
      (step hash op s) (UMon.step hash op umon) := by
  cases op with
  | access lineAddr => exact h.access hpos lineAddr
  | startNextInterval => exact .some ⟨h.startNextInterval, rfl⟩

theorem Refines.run (h : Refines s umon) (hpos : 0 < s.buckets) (hash : ℕ → Address → UInt64)
    (ops : List UMonOp) :
    Option.Rel Refines (Lib.run (UMonNodes.step hash) ops s)
      (Lib.run (UMon.step hash) ops umon) := by
  induction ops generalizing s umon with
  | nil => exact .some h
  | cons op ops ih =>
    have hstep := h.step hpos hash op
    rw [Lib.run, Lib.run]
    revert hstep
    generalize UMonNodes.step hash op s = s'
    generalize UMon.step hash op umon = umon'
    intro hstep
    cases hstep with
    | none => exact .none
    | some hnext => exact ih hnext.1 (hnext.2 ▸ hpos)

theorem update_ofNat (misses : ℕ → ℕ) (b total : ℕ) :
    Function.update (fun w => UInt64.ofNat (misses w)) b (UInt64.ofNat total) =
      fun w => UInt64.ofNat (Function.update misses b total w) := by
  funext w
  by_cases hw : w = b
  · rw [hw, Function.update_self, Function.update_self]
  · rw [Function.update_of_ne hw, Function.update_of_ne hw]

theorem store_getMissesFrom {hits : List UInt64} {curWayHits : ℕ → ℕ} {n : ℕ} (total : ℕ)
    (misses : ℕ → ℕ) (hhits : ∀ b < n, hits.getD b 0 = UInt64.ofNat (curWayHits b)) :
    store (UMon.getMissesFrom hits n (UInt64.ofNat total)) (fun w => UInt64.ofNat (misses w)) =
      fun w => UInt64.ofNat (getMissesFrom curWayHits n total misses w) := by
  induction n generalizing total misses with
  | zero => exact update_ofNat misses 0 total
  | succ n ih =>
    rw [UMon.getMissesFrom, getMissesFrom, hhits n (Nat.lt_succ_self n), ← UInt64.ofNat_add]
    rw [← ih _ _ fun b hb => hhits b (Nat.lt_succ_of_lt hb), ← update_ofNat]
    rfl

theorem Refines.getMisses (h : Refines s umon) :
    store umon.getMisses (fun _ => 0) = fun w => UInt64.ofNat (s.getMisses w) := by
  rw [UMon.getMisses, h.curMisses, h.buckets]
  refine store_getMissesFrom s.curMisses (fun _ => 0) fun b hb => ?_
  rw [h.curWayHits, List.getD_eq_getElem?_getD, List.getElem?_map, List.getElem?_range hb]
  rfl

theorem refines_init (bankLines umonLines buckets : ℕ) :
    Option.Rel (fun s umon => Refines s umon ∧ 0 < s.buckets) (init bankLines umonLines buckets)
      (UMon.init bankLines umonLines buckets) := by
  unfold init UMon.init
  by_cases hnone : umonLines = 0 ∨ buckets = 0
  · rw [if_pos hnone, if_pos hnone]
    exact .none
  · rw [if_neg hnone, if_neg hnone]
    have hpos : 0 < buckets := by omega
    refine .some ⟨⟨rfl, rfl, rfl, ?_, rfl, List.length_replicate, fun set hset => ?_⟩, hpos⟩
    · exact ((List.map_const' ..).trans (congrArg (List.replicate · 0) List.length_range)).symm
    · refine ⟨List.range buckets, chain_init hpos, ?_⟩
      exact (List.getElem?_replicate_of_lt hset).trans
        (congrArg some (addrs_init _ buckets).symm)

/-- The lists hold what the chained nodes hold after the same accesses, so that the curves are the
same in 64 bits. -/
theorem lists_refined (hash : ℕ → Address → UInt64) (bankLines umonLines buckets : ℕ)
    (ops : List UMonOp) :
    Option.Rel (fun s umon => Refines s umon ∧
        store umon.getMisses (fun _ => 0) = fun w => UInt64.ofNat (s.getMisses w))
      ((init bankLines umonLines buckets).bind (Lib.run (step hash) ops))
      ((UMon.init bankLines umonLines buckets).bind (Lib.run (UMon.step hash) ops)) := by
  have hinit := refines_init bankLines umonLines buckets
  revert hinit
  generalize init bankLines umonLines buckets = s
  generalize UMon.init bankLines umonLines buckets = umon
  intro hinit
  cases hinit with
  | none => exact .none
  | some h =>
    have hrun := h.1.run h.2 hash ops
    rw [Option.bind_some, Option.bind_some]
    revert hrun
    generalize Lib.run (step hash) ops _ = s
    generalize Lib.run (UMon.step hash) ops _ = umon
    intro hrun
    cases hrun with
    | none => exact .none
    | some h => exact .some ⟨h, h.getMisses⟩

end UMonNodes

end Doppelganger.Part

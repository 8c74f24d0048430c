import Doppelganger.Hierarchy.Groups
import Mathlib.Algebra.GroupWithZero.Nat
import Mathlib.Data.List.Perm.Lattice

/-! `InitSystem` of `init.cpp`, second half: how the banks of the groups are connected, and which
core gets which caches. -/

namespace Doppelganger.Hierarchy

open Lib

/-- What a bank has for a parent: a memory controller, the one that splits the addresses among
them, or a bank. -/
inductive MemObject
  | mem (i : ℕ)
  | splitter
  | bank (b : Bank)
  deriving DecidableEq

inductive Call
  | setParents (bank : Bank) (childId : ℕ) (parents : List MemObject)
  | setChildren (bank : Bank) (children : List Bank)
  deriving DecidableEq

/-- `MAX_CACHE_CHILDREN`. -/
def maxCacheChildren : ℕ := 256

/-- The panics of `setParents` and `setChildren`. -/
def Call.check (network : Bool) : Call → Setup PUnit
  | .setParents bank _ parents =>
    match bank.kind with
    | .prefetcher =>
      if parents.length ≠ 1 then throw .oneParent
      else if network then throw .network
      else pure ()
    | _ => pure ()
  | .setChildren bank children =>
    match bank.kind with
    | .prefetcher =>
      if children.length ≠ 1 then throw .oneChild
      else if network then throw .network
      else pure ()
    | .filter => throw (.terminalChildren bank.group)
    | .cache _ =>
      if children.length > maxCacheChildren then throw (.maxChildren bank.group children.length)
      else pure ()

/-- `*cMap[name]`. -/
def deref (cMap : List (Name × CacheGroup)) (name : Name) : Setup CacheGroup :=
  match cMap.lookup name with
  | some cg => pure cg
  | none => throw (.null name)

/-- The memory controllers. -/
def buildMems (cfg : SysConfig) : Setup (List MemObject) :=
  if cfg.memControllers = 0 then
    throw .assertion
  else if cfg.memControllers > 1 ∧ cfg.splitAddrs then
    pure [.splitter]
  else
    pure ((List.range cfg.memControllers).map .mem)

/-- The caches of the groups that `childVec` interleaves. -/
def interleave (cMap : List (Name × CacheGroup)) (childVec : List Name) : Setup CacheGroup :=
  match childVec with
  | [] => pure []
  | first :: _ => do
    let vecSize := (← deref cMap first).length
    let groups ← childVec.mapM fun child => do
      let cg ← deref cMap child
      if cg.length ≠ vecSize then throw (.interleaved childVec child) else pure cg
    pure ((List.range vecSize).flatMap fun i => groups.map fun cg => cg.getD i [])

/-- The calls for a cache `parent` and the banks of its children. -/
def parentCalls (parent childrenVec : List Bank) : List Call :=
  (childrenVec.zipIdx.map fun (bank, childId) => .setParents bank childId (parent.map .bank)) ++
    parent.map fun bank => .setChildren bank childrenVec

/-- The caches of a group, each with the banks of its children. -/
def families (parentCaches childCaches : CacheGroup) : List (List Bank × List Bank) :=
  let childrenPerParent := childCaches.length / parentCaches.length
  parentCaches.zipIdx.map fun (parent, p) =>
    (parent, ((childCaches.drop (p * childrenPerParent)).take childrenPerParent).flatten)

/-- The families of the caches of a group that is not terminal. -/
def linkGroup (cMap : List (Name × CacheGroup)) (m : Maps) (grp : Name) :
    Setup (List (List Bank × List Bank)) := do
  let parentCaches ← deref cMap grp
  if parentCaches.length = 0 then
    throw .assertion
  else
    let childCaches := (← (m.children grp).mapM (interleave cMap)).flatten
    if childCaches.length = 0 then
      throw .assertion
    else if childCaches.length % parentCaches.length ≠ 0 then
      throw (.nonDivisible grp parentCaches.length childCaches.length)
    else
      pure (families parentCaches childCaches)

def connectGroup (cfg : SysConfig) (cMap : List (Name × CacheGroup)) (m : Maps) (grp : Name) :
    Setup (List Call) := do
  let linked ← linkGroup cMap m grp
  let calls := linked.flatMap fun (parent, childrenVec) => parentCalls parent childrenVec
  calls.forM (Call.check cfg.network)
  pure calls

/-- The banks of the last level. -/
def connectLLC (cfg : SysConfig) (llcBanks : List Bank) (mems : List MemObject) :
    Setup (List Call) := do
  let calls := llcBanks.zipIdx.map fun (bank, childId) => Call.setParents bank childId mems
  calls.forM (Call.check cfg.network)
  pure calls

/-- The terminal caches have a single bank. -/
def checkTerminal (cMap : List (Name × CacheGroup)) (grp : Name) : Setup PUnit := do
  match ← deref cMap grp with
  | [] => throw .outOfRange
  | cache :: _ =>
    if cache.length ≠ 1 then throw (.terminalBanks grp cache.length) else pure ()

/-! ### Cores -/

structure Core where
  group : Name
  idx : ℕ
  type : CoreType
  srcId : ℕ
  /-- The filter caches of the core, but for a `NullCore`. -/
  caches : List Bank
  deriving DecidableEq

/-- How many caches of each group have been given to cores, and the cores. -/
structure Assigning where
  assigned : Name → ℕ := fun _ => 0
  cores : List Core := []

/-- The next cache of a group. -/
def takeCache (cMap : List (Name × CacheGroup)) (name : Name) (used : ℕ → Panic)
    (assigned : Name → ℕ) : Setup (Bank × (Name → ℕ)) := do
  let cg ← deref cMap name
  match cg[assigned name]? with
  | none => throw (used cg.length)
  | some [] => throw .outOfRange
  | some (bank :: _) =>
    if bank.kind = .filter then
      pure (bank, Function.update assigned name (assigned name + 1))
    else
      throw .assertion  -- the `dynamic_cast`

def buildCore (cMap : List (Name × CacheGroup)) (c : CoreConfig) (s : Assigning) (j : ℕ) :
    Setup Assigning :=
  let coreIdx := s.cores.length
  if c.type = .null then
    pure { s with cores := s.cores ++ [⟨c.name, j, c.type, coreIdx, []⟩] }
  else do
    let (ic, assigned) ← takeCache cMap c.icache (.icacheUsed c.name c.icache) s.assigned
    let (dc, assigned) ← takeCache cMap c.dcache (.dcacheUsed c.name c.dcache) assigned
    pure ⟨assigned, s.cores ++ [⟨c.name, j, c.type, coreIdx, [ic, dc]⟩]⟩

def buildCoreGroup (cfg : SysConfig) (cMap : List (Name × CacheGroup)) (m : Maps) (s : Assigning)
    (c : CoreConfig) : Setup Assigning :=
  let assignable := cfg.cacheGroupNames.filter m.isTerminal
  if (m.parentMap.lookup c.name).isSome then
    throw (.coreName c.name)
  else if c.type = .other then
    throw (.coreType c.name)
  else if c.type ≠ .null ∧ !assignable.contains c.icache then
    throw (.icache c.name c.icache)
  else if c.type ≠ .null ∧ !assignable.contains c.dcache then
    throw (.dcache c.name c.dcache)
  else
    (List.range c.cores).foldlM (buildCore cMap c) s

/-- The terminal caches are fully connected. -/
def checkAssigned (cMap : List (Name × CacheGroup)) (assigned : Name → ℕ) (grp : Name) :
    Setup PUnit := do
  let cg ← deref cMap grp
  if assigned grp ≠ cg.length then throw (.notConnected grp cg.length (assigned grp)) else pure ()

/-- `zinfo->numCores`, which `SimInit` has counted. -/
def SysConfig.numCores (cfg : SysConfig) : ℕ :=
  (cfg.cores.map (·.cores)).sum

/-- What `InitSystem` leaves. -/
structure SimSystem where
  maps : Maps
  llc : Name
  cMap : List (Name × CacheGroup)
  mems : List MemObject
  calls : List Call
  cores : List Core

def initSystem (cfg : SysConfig) : Setup SimSystem := do
  let names := cfg.cacheGroupNames
  let m ← cfg.caches.foldlM Maps.readGroup {}
  m.checkChildren names
  let llc ← m.lastLevel
  let cMap ← buildGroups cfg m llc
  let llcCaches ← deref cMap llc
  if llcCaches.length ≠ 1 then
    throw (.lastLevelCaches llc llcCaches.length)
  else
    let mems ← buildMems cfg
    let llcCalls ← connectLLC cfg llcCaches.flatten mems
    let calls ← (names.filter (!m.isTerminal ·)).mapM (connectGroup cfg cMap m)
    (names.filter m.isTerminal).forM (checkTerminal cMap)
    let s ← cfg.cores.foldlM (buildCoreGroup cfg cMap m) {}
    (names.filter m.isTerminal).forM (checkAssigned cMap s.assigned)
    if cfg.numCores ≠ s.cores.length then
      throw (.coreCount cfg.numCores s.cores.length)
    else
      pure ⟨m, llc, cMap, mems, llcCalls ++ calls.flatten, s.cores⟩

/-! ### The families -/

section Lists

variable {α : Type}

/-- A list cut into pieces of one length. -/
theorem flatMap_chunks (n k : ℕ) (l : List α) (h : l.length = n * k) :
    ((List.range n).flatMap fun p => (l.drop (p * k)).take k) = l := by
  induction n generalizing l with
  | zero => exact (List.length_eq_zero_iff.mp (by rw [h, Nat.zero_mul])).symm
  | succ n ih =>
    have hrest := ih (l.drop k) (by rw [List.length_drop, h, Nat.succ_mul, Nat.add_sub_cancel])
    rw [List.range_succ_eq_map, List.flatMap_cons, List.flatMap_map, Nat.zero_mul, List.drop_zero]
    conv_rhs => rw [← List.take_append_drop k l, ← hrest]
    congr 1
    refine List.flatMap_congr fun p _ => ?_
    rw [List.drop_drop, Nat.succ_mul, Nat.add_comm]

theorem perm_flatMap {β γ : Type} {f : β → List γ} {g : α → List γ} {l : List α} {l' : List β}
    (h : List.Forall₂ (fun a b => (f b).Perm (g a)) l l') : (l'.flatMap f).Perm (l.flatMap g) := by
  induction h with
  | nil => exact .nil
  | cons hab _ ih =>
    rw [List.flatMap_cons, List.flatMap_cons]
    exact hab.append ih

/-- Lists that are interleaved, of one length. -/
theorem interleaved_perm {n : ℕ} {groups : List (List (List α))}
    (h : ∀ cg ∈ groups, cg.length = n) :
    ((List.range n).flatMap fun i => groups.map fun cg => cg.getD i []).Perm groups.flatten := by
  induction groups with
  | nil => simp
  | cons cg groups ih =>
    have hcg : (List.range n).map (fun i => cg.getD i []) = cg := by
      rw [← h cg List.mem_cons_self]
      exact List.ext_getElem (by simp) fun i _ hi => by simp [hi]
    rw [List.flatten_cons]
    refine (List.map_append_flatMap_perm ..).symm.trans ?_
    rw [hcg]
    exact (ih fun x hx => h x (List.mem_cons_of_mem cg hx)).append_left cg

end Lists

theorem families_parents (parentCaches childCaches : CacheGroup) :
    (families parentCaches childCaches).map (·.1) = parentCaches := by
  rw [families, List.map_map]
  exact List.zipIdx_map_fst ..

theorem families_children {parentCaches childCaches : CacheGroup}
    (h : childCaches.length % parentCaches.length = 0) :
    (families parentCaches childCaches).flatMap (·.2) = childCaches.flatten := by
  obtain ⟨k, hk⟩ := Nat.dvd_of_mod_eq_zero h
  obtain hzero | hpos := Nat.eq_zero_or_pos parentCaches.length
  · rw [hzero, Nat.zero_mul] at hk
    rw [List.length_eq_zero_iff.mp hk, List.length_eq_zero_iff.mp hzero]
    rfl
  have hdiv : childCaches.length / parentCaches.length = k := by
    rw [hk, Nat.mul_div_cancel_left k hpos]
  conv_rhs => rw [← flatMap_chunks _ k childCaches hk]
  rw [families, hdiv, List.flatMap_map, List.flatten_eq_flatMap, List.flatMap_assoc,
    List.range_eq_range', ← List.zipIdx_map_snd 0 parentCaches, List.flatMap_map]
  simp only [List.flatten_eq_flatMap]

/-! ### What is connected -/

def banksOf (cMap : List (Name × CacheGroup)) (name : Name) : List Bank :=
  ((cMap.lookup name).getD []).flatten

section Connect

variable {cfg : SysConfig} {cs : List CacheConfig} {m : Maps} {names : List Name} {llc : Name}
  {cMap : List (Name × CacheGroup)}

/-- The errors of the connections: a group has not been built if it hangs from a cycle. -/
def Fault (m : Maps) (names : List Name) (llc : Name) (e : Panic) : Prop :=
  (∀ group, e ≠ .loop group) ∧ (∀ numCores coreIdx, e ≠ .coreCount numCores coreIdx) ∧
    ∀ group, e = .null group → group ∈ names ∧ ¬ Descends m.childGroups llc group

theorem Fault.of_plain {e : Panic} (h : Maps.Plain e) : Fault m names llc e :=
  ⟨h.1, h.2.1, fun group heq => absurd heq (h.2.2 group)⟩

theorem deref_ends (hbuilt : Built m llc cMap) {name : Name} (hname : name ∈ names) :
    Ends (deref cMap name) (fun cg => cMap.lookup name = some cg) (Fault m names llc) := by
  unfold deref
  split
  case h_1 hsome => exact Ends.pure hsome
  case h_2 hnone =>
    refine Ends.throw ⟨nofun, nofun, fun group heq => ?_⟩
    obtain rfl := Panic.null.inj heq
    refine ⟨hname, (hbuilt.descend _).not.mp (lookup_isNone.mp ?_)⟩
    exact Option.isNone_iff_eq_none.mpr hnone

theorem flatMap_banks {childVec : List Name} {groups : List CacheGroup} {n : ℕ}
    (h : List.Forall₂ (fun child cg => cMap.lookup child = some cg ∧ cg.length = n)
      childVec groups) : groups.flatten.flatten = childVec.flatMap (banksOf cMap) := by
  induction h with
  | nil => rfl
  | cons h _ ih =>
    rw [List.flatten_cons, List.flatten_append, ih, List.flatMap_cons, banksOf, h.1,
      Option.getD_some]

theorem interleave_ends (hbuilt : Built m llc cMap) {childVec : List Name}
    (hnames : ∀ child ∈ childVec, child ∈ names) :
    Ends (interleave cMap childVec)
      (fun cg => cg.flatten.Perm (childVec.flatMap (banksOf cMap))) (Fault m names llc) := by
  unfold interleave
  split
  · exact Ends.pure .nil
  rename_i first rest
  refine (deref_ends hbuilt (hnames first List.mem_cons_self)).bind fun cg _ => ?_
  refine (Ends.mapM (fun child cg' => cMap.lookup child = some cg' ∧ cg'.length = cg.length)
    fun child hchild => ?_).bind fun groups hgroups => Ends.pure ?_
  · refine (deref_ends hbuilt (hnames child hchild)).bind fun cg' hcg' => ?_
    split
    case isTrue => exact Ends.throw (.of_plain ⟨nofun, nofun, nofun⟩)
    case isFalse hlen => exact Ends.pure ⟨hcg', of_not_not hlen⟩
  · rw [← flatMap_banks hgroups]
    refine (interleaved_perm fun cg' hcg' => ?_).flatten
    obtain ⟨child, -, h⟩ := forall₂_mem_right hgroups hcg'
    exact h.2

/-- The families of a group: its caches, and the banks of its children, each once. -/
structure Linked (cMap : List (Name × CacheGroup)) (m : Maps) (grp : Name)
    (linked : List (List Bank × List Bank)) : Prop where
  parents : cMap.lookup grp = some (linked.map (·.1))
  children : (linked.flatMap (·.2)).Perm ((m.childGroups grp).flatMap (banksOf cMap))

theorem linkGroup_ends (hroot : Rooted names m.childGroups llc) (hbuilt : Built m llc cMap)
    {grp : Name} (hgrp : grp ∈ names) :
    Ends (linkGroup cMap m grp) (Linked cMap m grp) (Fault m names llc) := by
  unfold linkGroup
  refine (deref_ends hbuilt hgrp).bind fun parentCaches hparents => ?_
  split
  · exact Ends.throw (.of_plain ⟨nofun, nofun, nofun⟩)
  have hnames : ∀ childVec ∈ m.children grp, ∀ child ∈ childVec, child ∈ names :=
    fun childVec hvec child hchild =>
      hroot.closed child (hroot.mem_flatMap (List.mem_flatten_of_mem hvec hchild))
  refine (Ends.mapM _ fun childVec hvec => interleave_ends hbuilt (hnames childVec hvec)).bind
    fun groups hgroups => ?_
  dsimp only
  split
  · exact Ends.throw (.of_plain ⟨nofun, nofun, nofun⟩)
  split
  · exact Ends.throw (.of_plain ⟨nofun, nofun, nofun⟩)
  · rename_i hmod
    refine Ends.pure ⟨by rw [families_parents, hparents], ?_⟩
    rw [families_children (of_not_not hmod), Maps.childGroups, List.flatten_flatten,
      ← List.flatMap_def, List.flatten_eq_flatMap, List.flatMap_assoc]
    exact perm_flatMap hgroups

/-- The banks that a call connects to their parents, or to their children. -/
def Call.child : Call → Option Bank
  | .setParents bank _ _ => some bank
  | .setChildren _ _ => none

def Call.parent : Call → Option Bank
  | .setParents _ _ _ => none
  | .setChildren bank _ => some bank

theorem filterMap_child (banks : List Bank) (n : ℕ) (parents : List MemObject) :
    ((banks.zipIdx n).map fun (bank, childId) => Call.setParents bank childId parents).filterMap
      Call.child = banks := by
  rw [List.filterMap_map]
  exact (congrFun List.filterMap_eq_map _).trans (List.zipIdx_map_fst n banks)

theorem parentCalls_child (parent childrenVec : List Bank) :
    (parentCalls parent childrenVec).filterMap Call.child = childrenVec := by
  have hnone : (parent.map fun bank => Call.setChildren bank childrenVec).filterMap Call.child =
      [] := by
    simp [Call.child]
  rw [parentCalls, List.filterMap_append, filterMap_child, hnone, List.append_nil]

theorem parentCalls_parent (parent childrenVec : List Bank) :
    (parentCalls parent childrenVec).filterMap Call.parent = parent := by
  have hnone : (childrenVec.zipIdx.map fun (bank, childId) =>
      Call.setParents bank childId (parent.map .bank)).filterMap Call.parent = [] := by
    simp [Call.parent]
  rw [parentCalls, List.filterMap_append, hnone, List.nil_append, List.filterMap_map]
  exact (congrFun List.filterMap_eq_map _).trans (List.map_id parent)

theorem mem_parentCalls {parent childrenVec : List Bank} {b : Bank} {i : ℕ} {ps : List MemObject} :
    .setParents b i ps ∈ parentCalls parent childrenVec ↔
      childrenVec[i]? = some b ∧ ps = parent.map .bank := by
  simp [parentCalls, List.mem_zipIdx_iff_getElem?, eq_comm]

theorem mem_parentCalls' {parent childrenVec cs : List Bank} {b : Bank} :
    .setChildren b cs ∈ parentCalls parent childrenVec ↔ b ∈ parent ∧ cs = childrenVec := by
  simp [parentCalls, eq_comm]

end Connect

end Doppelganger.Hierarchy

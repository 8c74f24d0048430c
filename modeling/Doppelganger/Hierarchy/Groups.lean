import Doppelganger.Config.ParseMask
import Doppelganger.Lib.Forest
import Doppelganger.Lib.Outcome

/-! `InitSystem` of `init.cpp`, first half: the groups of caches of a configuration, which of them
is the parent of which, and their caches and banks, built from the last-level cache on.  The keys
of a map are in the order in which they were put into it; the checks that go through a map come out
the same in any order, but for which of several offenders is named. -/

namespace Doppelganger.Hierarchy

open Config Lib

abbrev Name := List Char

/-- The panics of `InitSystem`, with what they print, its failed assertions, and what is no check
but undefined: a null pointer in `cMap`, an element past the end of a vector, a division by 0. -/
inductive Panic
  | parse (text : String)
  | invalidName
  | duplicate (group : Name)
  | twoParents (child parent group : Name)
  | invalidChild (parent child : Name)
  | lastLevels (groups : List Name)
  | loop (group : Name)
  | banks (group : Name) (banks size : ℕ)
  | bankSize (group : Name)
  | cacheType (group : Name)
  | terminalType (group : Name)
  | lastLevelCaches (group : Name) (caches : ℕ)
  | interleaved (children : List Name) (child : Name)
  | nonDivisible (group : Name) (parents children : ℕ)
  | oneParent
  | oneChild
  | network
  | terminalChildren (group : Name)
  | maxChildren (group : Name) (children : ℕ)
  | terminalBanks (group : Name) (banks : ℕ)
  | coreName (group : Name)
  | coreType (group : Name)
  | icache (group cache : Name)
  | dcache (group cache : Name)
  | icacheUsed (group cache : Name) (caches : ℕ)
  | dcacheUsed (group cache : Name) (caches : ℕ)
  | notConnected (group : Name) (caches assigned : ℕ)
  | coreCount (numCores coreIdx : ℕ)
  | assertion
  | null (group : Name)
  | outOfRange
  | divisionByZero
  deriving DecidableEq

/-- A run of `InitSystem`, `none` where a loop has not ended. -/
abbrev Setup := ExceptT Panic Option

/-! ### The configuration -/

inductive CacheType
  | simple
  | timing
  | tracing
  | traceDriven
  | other
  deriving DecidableEq

/-- `sys.caches.name`. -/
structure CacheConfig where
  name : Name
  children : List Char := []
  isPrefetcher : Bool := false
  prefetchers : ℕ := 1
  size : ℕ := 64 * 1024
  banks : ℕ := 1
  caches : ℕ := 1
  type : CacheType := .simple

inductive CoreType
  | simple
  | timing
  | ooo
  | null
  | other
  deriving DecidableEq

/-- `sys.cores.name`. -/
structure CoreConfig where
  name : Name
  cores : ℕ := 1
  type : CoreType := .simple
  icache : Name
  dcache : Name

structure SysConfig where
  caches : List CacheConfig
  cores : List CoreConfig
  lineSize : ℕ := 64
  memControllers : ℕ := 1
  splitAddrs : Bool := true
  network : Bool := false

namespace SysConfig

/-- `cacheGroupNames`. -/
def cacheGroupNames (cfg : SysConfig) : List Name :=
  cfg.caches.map (·.name)

/-- The settings under a name, where the look-up of one that is not there gives its default. -/
def group (cfg : SysConfig) (name : Name) : CacheConfig :=
  (cfg.caches.find? (·.name = name)).getD { name }

end SysConfig

/-! ### Parents and children -/

/-- `ParseList<string>`, where a token is read up to the first blank in it. -/
def parseList (listStr delimiters : List Char) : Parse (List Name) := do
  let nums ← tokenize listStr delimiters
  (nums.filter (!·.isEmpty)).mapM fun n =>
    match (n.dropWhile isSpace).takeWhile (!isSpace ·) with
    | [] => throw s!"{String.ofList n} in list [{String.ofList listStr}] could not be parsed"
    | x => pure x

/-- The groups that are concatenated, each with those that it interleaves. -/
def parseChildren (children : List Char) : Parse (List (List Name)) := do
  let concatGroups ← parseList children [' ']
  concatGroups.mapM fun cg => parseList cg ['|']

/-- The children of a group. -/
def SysConfig.childGroups (cfg : SysConfig) (group : Name) : List Name :=
  match (parseChildren (cfg.group group).children).run with
  | some (.ok children) => children.flatten
  | _ => []

/-- `childMap` and `parentMap`. -/
structure Maps where
  childMap : List (Name × List (List Name)) := []
  parentMap : List (Name × Name) := []

namespace Maps

def children (m : Maps) (group : Name) : List (List Name) :=
  (m.childMap.lookup group).getD []

def childGroups (m : Maps) (group : Name) : List Name :=
  (m.children group).flatten

def isTerminal (m : Maps) (group : Name) : Bool :=
  (m.children group).isEmpty

def addChild (group : Name) (m : Maps) (child : Name) : Setup Maps :=
  match m.parentMap.lookup child with
  | some parent => throw (.twoParents child parent group)
  | none => pure { m with parentMap := m.parentMap ++ [(child, group)] }

def readGroup (m : Maps) (c : CacheConfig) : Setup Maps :=
  if c.name = ['m', 'e', 'm'] then
    throw .invalidName
  else if (m.childMap.lookup c.name).isSome then
    throw (.duplicate c.name)
  else do
    let children ← (parseChildren c.children).adapt Panic.parse
    children.flatten.foldlM (addChild c.name)
      { m with childMap := m.childMap ++ [(c.name, children)] }

/-- Each child is a group. -/
def checkChildren (m : Maps) (names : List Name) : Setup PUnit :=
  m.parentMap.forM fun (child, parent) =>
    if child ∈ names then pure () else throw (.invalidChild parent child)

/-- The only group without a parent. -/
def lastLevel (m : Maps) : Setup Name :=
  match (m.childMap.map (·.1)).filter fun group => (m.parentMap.lookup group).isNone with
  | [llc] => pure llc
  | groups => throw (.lastLevels groups)

end Maps

/-! ### Caches and banks -/

/-- What a bank is: a filter cache, a cache, with the array for approximate lines if it is the
last level, or a prefetcher. -/
inductive BankKind
  | filter
  | cache (dpg : Bool)
  | prefetcher
  deriving DecidableEq

structure Bank where
  group : Name
  cache : ℕ
  bank : ℕ
  kind : BankKind
  deriving DecidableEq

abbrev CacheGroup := List (List Bank)

def buildCacheBank (cfg : SysConfig) (name : Name) (bankSize cache bank : ℕ)
    (isTerminal isLLC : Bool) : Setup Bank :=
  let type := (cfg.group name).type
  if type = .traceDriven then
    throw .assertion  -- `zinfo->traceDriven`
  else if cfg.lineSize = 0 then
    throw .assertion
  else if bankSize % cfg.lineSize ≠ 0 then
    throw (.bankSize name)
  else if isTerminal then
    if type = .simple then pure ⟨name, cache, bank, .filter⟩ else throw (.terminalType name)
  else
    match type with
    | .simple => pure ⟨name, cache, bank, .cache isLLC⟩
    | .timing | .tracing => pure ⟨name, cache, bank, .cache false⟩
    | _ => throw (.cacheType name)

def buildCacheGroup (cfg : SysConfig) (name : Name) (isTerminal isLLC : Bool) :
    Setup CacheGroup :=
  let c := cfg.group name
  if c.isPrefetcher then
    pure ((List.range c.prefetchers).map fun i => [⟨name, i, 0, .prefetcher⟩])
  else if c.banks = 0 then
    throw .divisionByZero
  else if c.size % c.banks ≠ 0 then
    throw (.banks name c.banks c.size)
  else
    (List.range c.caches).mapM fun i => (List.range c.banks).mapM fun j =>
      buildCacheBank cfg name (c.size / c.banks) i j isTerminal isLLC

/-- The groups that are built, those that wait, and whether the next one is the last level. -/
structure Building where
  cMap : List (Name × CacheGroup) := []
  fringe : List Name
  isLLC : Bool := true

/-- The loop that builds the groups. -/
def buildFrom (cfg : SysConfig) (m : Maps) : ℕ → Building → Setup (List (Name × CacheGroup))
  | 0, _ => ExceptT.mk none
  | fuel + 1, b =>
    match b.fringe with
    | [] => pure b.cMap
    | group :: fringe =>
      if (b.cMap.lookup group).isSome then
        throw (.loop group)
      else do
        let cg ← buildCacheGroup cfg group (m.isTerminal group) b.isLLC
        buildFrom cfg m fuel
          ⟨b.cMap ++ [(group, cg)], fringe ++ m.childGroups group, false⟩

def buildGroups (cfg : SysConfig) (m : Maps) (llc : Name) : Setup (List (Name × CacheGroup)) :=
  buildFrom cfg m (m.childMap.length + 1) { fringe := [llc] }

/-! ### The maps -/

section Lookup

variable {β : Type} {l : List (Name × β)} {k : Name} {v : β}

theorem lookup_isNone : (l.lookup k).isNone ↔ k ∉ l.map (·.1) := by
  rw [Option.isNone_iff_eq_none, List.lookup_eq_none_iff, List.mem_map]
  constructor
  · rintro h ⟨p, hp, rfl⟩
    simpa using h p hp
  · intro h p hp
    exact bne_iff_ne.mpr fun heq => h ⟨p, hp, heq.symm⟩

theorem lookup_isSome : (l.lookup k).isSome ↔ k ∈ l.map (·.1) := by
  rw [← not_iff_not, ← lookup_isNone, ← Option.not_isSome, Bool.not_eq_true, Bool.not_eq_true']

theorem mem_of_lookup (h : l.lookup k = some v) : (k, v) ∈ l := by
  obtain ⟨l1, l2, rfl, -⟩ := List.lookup_eq_some_iff.mp h
  simp

theorem lookup_of_mem (hl : (l.map (·.1)).Nodup) (h : (k, v) ∈ l) : l.lookup k = some v := by
  obtain ⟨l1, l2, rfl⟩ := List.append_of_mem h
  refine List.lookup_eq_some_iff.mpr ⟨l1, l2, rfl, fun p hp => bne_iff_ne.mpr fun heq => ?_⟩
  rw [List.map_append, List.map_cons] at hl
  exact List.disjoint_of_nodup_append hl (List.mem_map_of_mem hp) (by simp [heq])

end Lookup

namespace Maps

/-- The maps after some groups have been read: `parentMap` has the children of `childMap`, each
once. -/
structure Read (past : List CacheConfig) (m : Maps) : Prop where
  names : m.childMap.map (·.1) = past.map (·.name)
  distinct : (m.childMap.map (·.1)).Nodup
  parents : m.parentMap = m.childMap.flatMap fun (group, children) =>
    children.flatten.map (·, group)
  once : (m.parentMap.map (·.1)).Nodup
  parsed : ∀ p ∈ m.childMap, ∃ c ∈ past, c.name = p.1 ∧ parseChildren c.children = pure p.2

/-- The errors that say nothing of the shape of the tree, and never a wrong number of cores. -/
def Plain (e : Panic) : Prop :=
  (∀ group, e ≠ .loop group) ∧ (∀ numCores coreIdx, e ≠ .coreCount numCores coreIdx) ∧
    ∀ group, e ≠ .null group

theorem addChildren {group : Name} {children : List Name} {m : Maps}
    (h : (m.parentMap.map (·.1)).Nodup) :
    Ends (children.foldlM (addChild group) m)
      (fun m' => m' = { m with parentMap := m.parentMap ++ children.map (·, group) } ∧
        (m'.parentMap.map (·.1)).Nodup) Plain := by
  refine Ends.foldlM (fun past m' =>
    m' = { m with parentMap := m.parentMap ++ past.map (·, group) } ∧
      (m'.parentMap.map (·.1)).Nodup) ⟨by simp, h⟩ ?_
  rintro past child _ - ⟨rfl, hnodup⟩
  unfold addChild
  split
  · exact Ends.throw ⟨nofun, nofun, nofun⟩
  · rename_i hnone
    refine Ends.pure ⟨by simp, ?_⟩
    have hnew := lookup_isNone.mp (Option.isNone_iff_eq_none.mpr hnone)
    rw [List.map_append, List.nodup_append']
    exact ⟨hnodup, List.nodup_singleton _, by simpa using hnew⟩

theorem parseList_ends (listStr : List Char) (d : Char) :
    Ends (parseList listStr [d]) (fun _ => True) fun _ => True := by
  unfold parseList
  rw [tokenize_eq, pure_bind]
  refine (Ends.mapM (fun _ _ => True) fun n _ => ?_).mono (fun _ _ => trivial) fun _ he => he
  split
  · exact Ends.throw trivial
  · exact Ends.pure trivial

theorem parseChildren_ends (children : List Char) :
    Ends ((parseChildren children).adapt Panic.parse) (fun cs => parseChildren children = pure cs)
      Plain := by
  have hparse : Ends (parseChildren children) (fun _ => True) fun _ => True :=
    (parseList_ends children ' ').bind fun concatGroups _ =>
      (Ends.mapM (fun _ _ => True) fun cg _ => parseList_ends cg '|').mono
        (fun _ _ => trivial) fun _ he => he
  exact Ends.adapt (hparse.result.mono (fun _ h => h) fun _ _ => ⟨nofun, nofun, nofun⟩)

theorem readGroup_read {past : List CacheConfig} {m : Maps} {c : CacheConfig}
    (h : m.Read past) : Ends (m.readGroup c) (Read (past ++ [c])) Plain := by
  unfold readGroup
  split
  · exact Ends.throw ⟨nofun, nofun, nofun⟩
  split
  · exact Ends.throw ⟨nofun, nofun, nofun⟩
  rename_i hnew
  refine (parseChildren_ends c.children).bind fun children hparse => ?_
  let m' : Maps := { m with childMap := m.childMap ++ [(c.name, children)] }
  refine (addChildren (m := m') h.once).mono ?_ fun _ he => he
  rintro _ ⟨rfl, honce⟩
  refine ⟨by simp [m', h.names], ?_, by simp [m', h.parents], honce, fun p hp => ?_⟩
  · rw [lookup_isSome] at hnew
    rw [List.map_append, List.nodup_append']
    exact ⟨h.distinct, List.nodup_singleton _, by simpa using hnew⟩
  · obtain hp | hp := List.mem_append.mp hp
    · obtain ⟨c', hc', hparsed⟩ := h.parsed p hp
      exact ⟨c', List.mem_append_left _ hc', hparsed⟩
    · obtain rfl := List.mem_singleton.mp hp
      exact ⟨c, by simp, rfl, hparse⟩

theorem readGroups_read (cs : List CacheConfig) :
    Ends (cs.foldlM readGroup {}) (Read cs) Plain :=
  Ends.foldlM _ ⟨rfl, List.nodup_nil, rfl, List.nodup_nil, nofun⟩ fun _ _ _ _ h => readGroup_read h

variable {cs : List CacheConfig} {m : Maps}

theorem Read.children_eq (h : m.Read cs) {p : Name × List (List Name)} (hp : p ∈ m.childMap) :
    m.children p.1 = p.2 := by
  rw [children, lookup_of_mem h.distinct hp, Option.getD_some]

theorem Read.flatMap_children (h : m.Read cs) :
    (cs.map (·.name)).flatMap m.childGroups =
      m.parentMap.map (·.1) := by
  rw [← h.names, h.parents, List.flatMap_map, List.map_flatMap]
  refine List.flatMap_congr fun p hp => ?_
  rw [childGroups, h.children_eq hp, List.map_map]
  exact (List.map_id _).symm

/-- `childMap` has the children of the configuration. -/
theorem Read.childGroups_eq {cfg : SysConfig} (h : m.Read cfg.caches) :
    m.childGroups = cfg.childGroups := by
  funext group
  have hdistinct : (cfg.caches.map (·.name)).Nodup := h.names ▸ h.distinct
  rw [childGroups, SysConfig.childGroups, children]
  cases hlookup : m.childMap.lookup group with
  | none =>
    have hnew := lookup_isNone.mp (Option.isNone_iff_eq_none.mpr hlookup)
    rw [h.names] at hnew
    have hfind : cfg.caches.find? (·.name = group) = none :=
      List.find?_eq_none.mpr fun c hc heq =>
        hnew (List.mem_map.mpr ⟨c, hc, of_decide_eq_true heq⟩)
    rw [SysConfig.group, hfind]
    rfl
  | some children =>
    obtain ⟨c, hc, rfl, hparse⟩ := h.parsed _ (mem_of_lookup hlookup)
    have hsome : (cfg.caches.find? (·.name = c.name)).isSome :=
      List.find?_isSome.mpr ⟨c, hc, decide_eq_true rfl⟩
    obtain ⟨c', hfind⟩ := Option.isSome_iff_exists.mp hsome
    have hname : c'.name = c.name := by simpa using List.find?_some hfind
    obtain rfl := List.inj_on_of_nodup_map hdistinct (List.mem_of_find?_eq_some hfind) hc hname
    have hgroup : cfg.group c'.name = c' := by
      rw [SysConfig.group, hfind]
      rfl
    rw [hgroup, hparse]
    rfl

theorem checkChildren_ends (m : Maps) (names : List Name) :
    Ends (m.checkChildren names) (fun _ => ∀ child ∈ m.parentMap.map (·.1), child ∈ names)
      Plain := by
  unfold checkChildren
  refine (Ends.forM (fun p => p.1 ∈ names) fun p _ => ?_).mono ?_ fun _ he => he
  · obtain ⟨child, parent⟩ := p
    dsimp only
    split
    case isTrue hmem => exact Ends.pure hmem
    case isFalse => exact Ends.throw ⟨nofun, nofun, nofun⟩
  · rintro - hall _ hchild
    obtain ⟨p, hp, rfl⟩ := List.mem_map.mp hchild
    exact hall p hp

/-- With the checks passed, the groups hang from the last level, but for those that hang from a
cycle. -/
theorem lastLevel_ends (h : m.Read cs)
    (hvalid : ∀ child ∈ m.parentMap.map (·.1), child ∈ cs.map (·.name)) :
    Ends m.lastLevel
      (Rooted (cs.map (·.name)) m.childGroups) Plain := by
  unfold lastLevel
  split
  case h_2 => exact Ends.throw ⟨nofun, nofun, nofun⟩
  case h_1 llc hllc =>
    have hroot (group : Name) : group ∈ [llc] ↔ group ∈ cs.map (·.name) ∧
        group ∉ m.parentMap.map (·.1) := by
      rw [← hllc, List.mem_filter, lookup_isNone, h.names]
    refine Ends.pure ⟨?_, h.names ▸ h.distinct, fun p hp => ?_, ?_, ?_, ?_, fun x hx hne => ?_⟩
    · exact h.flatMap_children ▸ h.once
    · rw [← h.names, ← lookup_isSome]
      refine Option.isSome_iff_ne_none.mpr fun hnone => hp ?_
      rw [childGroups, children, hnone]
      rfl
    · exact h.flatMap_children ▸ hvalid
    · exact ((hroot llc).mp (List.mem_singleton_self llc)).1
    · exact h.flatMap_children ▸ ((hroot llc).mp (List.mem_singleton_self llc)).2
    · rw [h.flatMap_children]
      by_contra hfree
      exact hne (List.mem_singleton.mp ((hroot x).mpr ⟨hx, hfree⟩))

end Maps

/-! ### The groups that are built -/

/-- The banks of a group have its name and their places in it. -/
def Numbered (name : Name) (cg : CacheGroup) : Prop :=
  ∀ (i j : ℕ) (b : Bank), cg[i]?.bind (·[j]?) = some b → b.group = name ∧ b.cache = i ∧ b.bank = j

/-- A group has caches with as many banks each. -/
structure IsGroup (name : Name) (cg : CacheGroup) : Prop where
  numbered : Numbered name cg
  uniform : ∃ banks, ∀ cache ∈ cg, cache.length = banks

variable {cfg : SysConfig} {m : Maps} {llc : Name}

theorem forall₂_range {β : Type} {rel : ℕ → β → Prop} {n i : ℕ} {l : List β} {b : β}
    (h : List.Forall₂ rel (List.range n) l) (hb : l[i]? = some b) : rel i b := by
  obtain ⟨hi, rfl⟩ := List.getElem?_eq_some_iff.mp hb
  have hlength := h.length_eq
  have := h.get (hlength ▸ hi) hi
  simpa using this

theorem forall₂_mem_right {α β : Type} {rel : α → β → Prop} {l : List α} {l' : List β} {b : β}
    (h : List.Forall₂ rel l l') (hb : b ∈ l') : ∃ a ∈ l, rel a b := by
  induction h with
  | nil => exact absurd hb List.not_mem_nil
  | @cons a _ l _ hab _ ih =>
    obtain rfl | hb := List.mem_cons.mp hb
    · exact ⟨a, List.mem_cons_self, hab⟩
    · obtain ⟨a', ha', hrel⟩ := ih hb
      exact ⟨a', List.mem_cons_of_mem a ha', hrel⟩

theorem buildCacheBank_ends (cfg : SysConfig) (name : Name) (bankSize i j : ℕ)
    (isTerminal isLLC : Bool) : Ends (buildCacheBank cfg name bankSize i j isTerminal isLLC)
      (fun b => b.group = name ∧ b.cache = i ∧ b.bank = j) Maps.Plain := by
  unfold buildCacheBank
  dsimp only
  repeat' split
  all_goals first
    | exact Ends.pure ⟨rfl, rfl, rfl⟩
    | exact Ends.throw ⟨nofun, nofun, nofun⟩

theorem buildCacheGroup_ends (cfg : SysConfig) (name : Name) (isTerminal isLLC : Bool) :
    Ends (buildCacheGroup cfg name isTerminal isLLC) (IsGroup name) Maps.Plain := by
  unfold buildCacheGroup
  dsimp only
  split
  · refine Ends.pure ⟨fun i j b hb => ?_, 1, fun cache hcache => ?_⟩
    case refine_2 =>
      obtain ⟨i, -, rfl⟩ := List.mem_map.mp hcache
      rfl
    obtain ⟨cache, hcache, hb⟩ := Option.bind_eq_some_iff.mp hb
    rw [List.getElem?_map, Option.map_eq_some_iff] at hcache
    obtain ⟨i', hi', rfl⟩ := hcache
    obtain ⟨hj, rfl⟩ := List.getElem?_eq_some_iff.mp hb
    obtain rfl : j = 0 := Nat.lt_one_iff.mp hj
    obtain ⟨hi, rfl⟩ := List.getElem?_eq_some_iff.mp hi'
    exact ⟨rfl, List.getElem_range hi, rfl⟩
  split
  · exact Ends.throw ⟨nofun, nofun, nofun⟩
  split
  · exact Ends.throw ⟨nofun, nofun, nofun⟩
  · refine (Ends.mapM _ fun i _ => Ends.mapM _ fun j _ =>
      buildCacheBank_ends ..).mono ?_ fun _ he => he
    refine fun cg hcg => ⟨fun i j b hb => ?_, (cfg.group name).banks, fun cache hcache => ?_⟩
    · obtain ⟨cache, hcache, hb⟩ := Option.bind_eq_some_iff.mp hb
      exact forall₂_range (forall₂_range hcg hcache) hb
    · obtain ⟨i, -, h⟩ := forall₂_mem_right hcg hcache
      rw [← h.length_eq, List.length_range]

/-- What the loop has when it is done. -/
structure Built (m : Maps) (llc : Name) (cMap : List (Name × CacheGroup)) : Prop where
  distinct : (cMap.map (·.1)).Nodup
  descend : ∀ name, name ∈ cMap.map (·.1) ↔
    Descends m.childGroups llc name
  groups : ∀ p ∈ cMap, IsGroup p.1 p.2

/-- A group is built once, so that no loop is ever found and each round of the loop builds one of
the groups. -/
theorem buildFrom_ends {names : List Name}
    (hroot : Rooted names m.childGroups llc) {fuel : ℕ} {b : Building}
    (hfuel : names.length < fuel + b.cMap.length)
    (hfrontier : Frontier m.childGroups llc (b.cMap.map (·.1))
      b.fringe) (hgroups : ∀ p ∈ b.cMap, IsGroup p.1 p.2) :
    Ends (buildFrom cfg m fuel b) (Built m llc) Maps.Plain := by
  induction fuel generalizing b with
  | zero =>
    have := hfrontier.length_le hroot
    rw [List.length_append, List.length_map] at this
    omega
  | succ fuel ih =>
    obtain ⟨cMap, fringe, isLLC⟩ := b
    rw [buildFrom]
    cases fringe with
    | nil =>
      have hdistinct := hfrontier.nodup
      rw [List.append_nil] at hdistinct
      exact Ends.pure ⟨hdistinct, hfrontier.done, hgroups⟩
    | cons group fringe =>
      have hfresh := hfrontier.fresh
      dsimp only
      rw [if_neg (lookup_isSome.not.mpr hfresh)]
      refine (buildCacheGroup_ends ..).bind fun cg hcg => ih ?_ ?_ ?_
      · rw [List.length_append, List.length_singleton]
        dsimp only at hfuel
        omega
      · rw [List.map_append]
        exact hfrontier.step hroot
      · intro p hp
        obtain hp | hp := List.mem_append.mp hp
        · exact hgroups p hp
        · exact List.mem_singleton.mp hp ▸ hcg

theorem buildGroups_ends {names : List Name}
    (hroot : Rooted names m.childGroups llc)
    (hnames : m.childMap.map (·.1) = names) :
    Ends (buildGroups cfg m llc) (Built m llc) Maps.Plain := by
  refine buildFrom_ends hroot ?_ (Frontier.init _ _) fun p hp => absurd hp List.not_mem_nil
  rw [← hnames, List.length_map]
  exact Nat.lt_succ_self _

end Doppelganger.Hierarchy

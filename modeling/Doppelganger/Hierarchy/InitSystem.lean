import Doppelganger.Hierarchy.Wiring

/-! What `InitSystem` leaves: a tree of all the groups, whose banks agree on which is whose child,
and whose terminal caches belong to one core each. -/

namespace Doppelganger.Hierarchy

open Lib

namespace SimSystem

/-- The banks of all groups. -/
def banks (sys : SimSystem) : List Bank :=
  sys.cMap.flatMap fun p => p.2.flatten

/-- The parents and the children of the banks: each bank gets its parents once, and its children
once if its group is not terminal.  A bank is the child `i` of a parent if and only if the parent
has it as its child `i`, and the parents of a bank are the memories, for the last level, or the
banks of one cache of the parent group. -/
structure Wired (sys : SimSystem) : Prop where
  distinct : sys.banks.Nodup
  parented : (sys.calls.filterMap Call.child).Perm sys.banks
  mothered : (sys.calls.filterMap Call.parent).Perm
    (sys.banks.filter fun b => !sys.maps.isTerminal b.group)
  agree : ∀ p b i, (∃ cs, .setChildren p cs ∈ sys.calls ∧ cs[i]? = some b) ↔
    ∃ ps, .setParents b i ps ∈ sys.calls ∧ .bank p ∈ ps
  parents : ∀ b i ps, .setParents b i ps ∈ sys.calls → b.group = sys.llc ∧ ps = sys.mems ∨
    ∃ grp cg cache, sys.cMap.lookup grp = some cg ∧ cache ∈ cg ∧
      b.group ∈ sys.maps.childGroups grp ∧ ps = cache.map .bank

/-- The cores: every bank of a terminal group is a filter cache of one core, which is numbered by
its place and has the instruction and data caches of its configuration. -/
structure Assigned (cfg : SysConfig) (sys : SimSystem) : Prop where
  caches : (sys.cores.flatMap (·.caches)).Perm
    (sys.banks.filter fun b => sys.maps.isTerminal b.group)
  filter : ∀ b ∈ sys.cores.flatMap (·.caches), b.kind = .filter
  ids : sys.cores.map (·.srcId) = List.range cfg.numCores
  config : ∀ core ∈ sys.cores, ∃ c ∈ cfg.cores, core.group = c.name ∧ core.type = c.type ∧
    core.caches.map (·.group) = if c.type = .null then [] else [c.icache, c.dcache]

/-- The groups: all of them, which hang from the last level. -/
structure Tree (cfg : SysConfig) (sys : SimSystem) : Prop where
  groups : (sys.cMap.map (·.1)).Perm cfg.cacheGroupNames
  children : sys.maps.childGroups = cfg.childGroups
  descend : ∀ group ∈ cfg.cacheGroupNames, Descends cfg.childGroups sys.llc group
  acyclic : ∀ group ∈ cfg.cacheGroupNames,
    ¬ Relation.TransGen (ChildOf cfg.childGroups) group group

end SimSystem

/-! ### Banks -/

section Banks

variable {cMap : List (Name × CacheGroup)} {m : Maps} {llc name : Name} {b : Bank}

/-- `b` is the bank at its place. -/
def IsBank (cMap : List (Name × CacheGroup)) (b : Bank) : Prop :=
  ∃ cg, cMap.lookup b.group = some cg ∧ cg[b.cache]?.bind (·[b.bank]?) = some b

theorem mem_banksOf (hbuilt : Built m llc cMap) :
    b ∈ banksOf cMap name ↔ b.group = name ∧ IsBank cMap b := by
  unfold banksOf IsBank
  constructor
  · intro hb
    cases hlookup : cMap.lookup name with
    | none =>
      rw [hlookup] at hb
      exact absurd hb List.not_mem_nil
    | some cg =>
      rw [hlookup, Option.getD_some] at hb
      obtain ⟨cache, hcache, hb⟩ := List.mem_flatten.mp hb
      obtain ⟨i, hi⟩ := List.getElem?_of_mem hcache
      obtain ⟨j, hj⟩ := List.getElem?_of_mem hb
      have hplace : cg[i]?.bind (·[j]?) = some b := by rw [hi, Option.bind_some, hj]
      obtain ⟨rfl, rfl, rfl⟩ := (hbuilt.groups _ (mem_of_lookup hlookup)).numbered i j b hplace
      exact ⟨rfl, cg, hlookup, hplace⟩
  · rintro ⟨rfl, cg, hlookup, hplace⟩
    obtain ⟨cache, hcache, hb⟩ := Option.bind_eq_some_iff.mp hplace
    rw [hlookup, Option.getD_some]
    exact List.mem_flatten.mpr ⟨cache, List.mem_of_getElem? hcache, List.mem_of_getElem? hb⟩

/-- The banks of a group are distinct. -/
theorem banksOf_nodup (hbuilt : Built m llc cMap) (name : Name) : (banksOf cMap name).Nodup := by
  unfold banksOf
  cases hlookup : cMap.lookup name with
  | none => exact List.nodup_nil
  | some cg =>
    have hplace := (hbuilt.groups _ (mem_of_lookup hlookup)).numbered
    rw [Option.getD_some, List.nodup_flatten]
    constructor
    · intro cache hcache
      obtain ⟨i, hi⟩ := List.getElem?_of_mem hcache
      refine List.nodup_iff_getElem?_ne_getElem?.mpr fun j k hjk hk heq => ?_
      have hj := (List.getElem?_eq_getElem hk).symm ▸ heq
      have h1 := hplace i j _ (by rw [hi, Option.bind_some, hj])
      have h2 := hplace i k _ (by rw [hi, Option.bind_some, List.getElem?_eq_getElem hk])
      omega
    · refine List.pairwise_iff_getElem.mpr fun i j hi hj hij b hbi hbj => ?_
      obtain ⟨k, hk⟩ := List.getElem?_of_mem hbi
      obtain ⟨l, hl⟩ := List.getElem?_of_mem hbj
      have h1 := hplace i k b (by rw [List.getElem?_eq_getElem hi, Option.bind_some, hk])
      have h2 := hplace j l b (by rw [List.getElem?_eq_getElem hj, Option.bind_some, hl])
      omega

/-- The banks of distinct groups. -/
theorem flatMap_banks_nodup (hbuilt : Built m llc cMap) {names : List Name} (h : names.Nodup) :
    (names.flatMap (banksOf cMap)).Nodup := by
  refine List.nodup_flatMap.mpr ⟨fun name _ => banksOf_nodup hbuilt name, ?_⟩
  refine h.imp fun {name name'} hne b hb hb' => hne ?_
  rw [← ((mem_banksOf hbuilt).mp hb).1, ((mem_banksOf hbuilt).mp hb').1]

theorem filter_banks (hbuilt : Built m llc cMap) (p : Name → Bool) (names : List Name) :
    (names.flatMap (banksOf cMap)).filter (fun b => p b.group) =
      (names.filter p).flatMap (banksOf cMap) := by
  induction names with
  | nil => rfl
  | cons name names ih =>
    have hgroup : ∀ b ∈ banksOf cMap name, p b.group = p name := fun b hb => by
      rw [((mem_banksOf hbuilt).mp hb).1]
    rw [List.flatMap_cons, List.filter_append, ih, List.filter_cons, List.filter_congr hgroup]
    cases p name with
    | true => simp
    | false => simp

end Banks

/-! ### The connections -/

section Connect

variable {cfg : SysConfig} {m : Maps} {names inner : List Name} {llc : Name}
  {cMap : List (Name × CacheGroup)}

theorem check_ends (network : Bool) (calls : List Call) :
    Ends (calls.forM (Call.check network)) (fun _ => True) Maps.Plain := by
  refine (Ends.forM (fun _ => True) fun call _ => ?_).mono (fun _ _ => trivial)
    fun _ he => he
  unfold Call.check
  repeat' split
  all_goals first
    | exact Ends.pure trivial
    | exact Ends.throw ⟨nofun, nofun, nofun⟩

/-- The families of all groups that are not terminal. -/
structure Links (cMap : List (Name × CacheGroup)) (m : Maps) (inner : List Name)
    (links : List (List Bank × List Bank)) : Prop where
  parents : links.flatMap (·.1) = inner.flatMap (banksOf cMap)
  children : (links.flatMap (·.2)).Perm ((inner.flatMap m.childGroups).flatMap (banksOf cMap))
  family : ∀ l ∈ links, ∃ grp cg, cMap.lookup grp = some cg ∧ l.1 ∈ cg ∧
    ∀ b ∈ l.2, ∃ child ∈ m.childGroups grp, b ∈ banksOf cMap child

theorem Links.cons {grp : Name} {linked links : List (List Bank × List Bank)}
    (h : Linked cMap m grp linked) (hlinks : Links cMap m inner links) :
    Links cMap m (grp :: inner) (linked ++ links) where
  parents := by
    rw [List.flatMap_append, hlinks.parents, List.flatMap_cons, banksOf, h.parents,
      Option.getD_some, List.flatMap_def]
  children := by
    rw [List.flatMap_append, List.flatMap_cons, List.flatMap_append]
    exact h.children.append hlinks.children
  family l hl := by
    obtain hl | hl := List.mem_append.mp hl
    · refine ⟨grp, _, h.parents, List.mem_map_of_mem hl, fun b hb => ?_⟩
      exact List.mem_flatMap.mp (h.children.subset (List.mem_flatMap.mpr ⟨l, hl, hb⟩))
    · exact hlinks.family l hl

theorem connect_ends (hroot : Rooted names m.childGroups llc) (hbuilt : Built m llc cMap)
    (hinner : ∀ grp ∈ inner, grp ∈ names) :
    Ends (inner.mapM (connectGroup cfg cMap m))
      (fun calls => (∀ grp ∈ inner, (cMap.lookup grp).isSome) ∧ ∃ links, Links cMap m inner links ∧
        calls.flatten = links.flatMap fun l => parentCalls l.1 l.2)
      (Fault m names llc) := by
  refine (Ends.mapM (fun grp calls => ∃ linked, Linked cMap m grp linked ∧
    calls = linked.flatMap fun l => parentCalls l.1 l.2) fun grp hgrp => ?_).mono ?_ fun _ he => he
  · unfold connectGroup
    refine (linkGroup_ends hroot hbuilt (hinner grp hgrp)).bind fun linked hlinked => ?_
    refine ((check_ends cfg.network _).mono (fun _ h => h) fun _ => .of_plain).bind fun _ _ => ?_
    exact Ends.pure ⟨linked, hlinked, rfl⟩
  · intro calls hcalls
    clear hinner
    induction hcalls with
    | nil => exact ⟨nofun, [], ⟨rfl, .nil, nofun⟩, rfl⟩
    | @cons grp _ inner _ h _ ih =>
      obtain ⟨hsome, links, hlinks, heq⟩ := ih
      obtain ⟨linked, hlinked, rfl⟩ := h
      refine ⟨List.forall_mem_cons.mpr ⟨hlinked.parents ▸ rfl, hsome⟩, linked ++ links,
        hlinks.cons hlinked, ?_⟩
      rw [List.flatten_cons, heq, List.flatMap_append]

theorem inner_children (m : Maps) (names : List Name) :
    (names.filter (!m.isTerminal ·)).flatMap m.childGroups = names.flatMap m.childGroups := by
  induction names with
  | nil => rfl
  | cons name names ih =>
    rw [List.filter_cons, List.flatMap_cons, ← ih]
    split
    case isTrue => rw [List.flatMap_cons]
    case isFalse hterminal =>
      have hnil : m.children name = [] := by simpa [Maps.isTerminal] using hterminal
      rw [Maps.childGroups, hnil, List.flatten_nil, List.nil_append]

theorem banks_eq (hbuilt : Built m llc cMap) :
    (cMap.flatMap fun p => p.2.flatten) = (cMap.map (·.1)).flatMap (banksOf cMap) := by
  rw [List.flatMap_map]
  refine List.flatMap_congr fun p hp => ?_
  rw [banksOf, lookup_of_mem hbuilt.distinct hp, Option.getD_some]

/-- The calls for the last level, and then those for the families. -/
def linkCalls (llcBanks : List Bank) (mems : List MemObject)
    (links : List (List Bank × List Bank)) : List Call :=
  (llcBanks.zipIdx.map fun (bank, childId) => Call.setParents bank childId mems) ++
    links.flatMap fun l => parentCalls l.1 l.2

theorem linkCalls_child (llcBanks : List Bank) (mems : List MemObject)
    (links : List (List Bank × List Bank)) :
    (linkCalls llcBanks mems links).filterMap Call.child = llcBanks ++ links.flatMap (·.2) := by
  rw [linkCalls, List.filterMap_append, filterMap_child, List.filterMap_flatMap]
  simp only [parentCalls_child]

theorem linkCalls_parent (llcBanks : List Bank) (mems : List MemObject)
    (links : List (List Bank × List Bank)) :
    (linkCalls llcBanks mems links).filterMap Call.parent = links.flatMap (·.1) := by
  have hnone : (llcBanks.zipIdx.map fun (bank, childId) =>
      Call.setParents bank childId mems).filterMap Call.parent = [] := by
    simp [Call.parent]
  rw [linkCalls, List.filterMap_append, hnone, List.nil_append, List.filterMap_flatMap]
  simp only [parentCalls_parent]

theorem mem_linkCalls {llcBanks : List Bank} {mems ps : List MemObject}
    {links : List (List Bank × List Bank)} {b : Bank} {i : ℕ} :
    .setParents b i ps ∈ linkCalls llcBanks mems links ↔
      llcBanks[i]? = some b ∧ ps = mems ∨
        ∃ l ∈ links, l.2[i]? = some b ∧ ps = l.1.map .bank := by
  rw [linkCalls, List.mem_append, List.mem_flatMap]
  simp only [mem_parentCalls]
  simp [List.mem_zipIdx_iff_getElem?, eq_comm]

theorem mem_linkCalls' {llcBanks cs : List Bank} {mems : List MemObject}
    {links : List (List Bank × List Bank)} {b : Bank} :
    .setChildren b cs ∈ linkCalls llcBanks mems links ↔ ∃ l ∈ links, b ∈ l.1 ∧ cs = l.2 := by
  rw [linkCalls, List.mem_append, List.mem_flatMap]
  simp only [mem_parentCalls']
  simp

theorem wired {llcBanks : List Bank} {mems : List MemObject} {cores : List Core}
    {links : List (List Bank × List Bank)} (hroot : Rooted names m.childGroups llc)
    (hbuilt : Built m llc cMap) (hall : (cMap.map (·.1)).Perm names)
    (hllc : llcBanks = banksOf cMap llc) (hmems : ∀ b, .bank b ∉ mems)
    (hlinks : Links cMap m (names.filter (!m.isTerminal ·)) links) :
    SimSystem.Wired ⟨m, llc, cMap, mems, linkCalls llcBanks mems links, cores⟩ := by
  have hbanks : (cMap.flatMap fun p => p.2.flatten).Perm (names.flatMap (banksOf cMap)) :=
    banks_eq hbuilt ▸ hall.flatMap_right _
  refine ⟨?_, ?_, ?_, fun p b i => ?_, fun b i ps hps => ?_⟩
  · exact hbanks.nodup_iff.mpr (flatMap_banks_nodup hbuilt hroot.distinct)
  · rw [linkCalls_child, hllc]
    refine .trans ?_ hbanks.symm
    refine .trans ?_ (hroot.perm.flatMap_right _)
    rw [List.flatMap_cons, ← inner_children]
    exact hlinks.children.append_left _
  · rw [linkCalls_parent, hlinks.parents, ← filter_banks hbuilt]
    exact (hbanks.filter _).symm
  · simp only [mem_linkCalls, mem_linkCalls']
    constructor
    · rintro ⟨_, ⟨l, hl, hp, rfl⟩, hb⟩
      exact ⟨_, .inr ⟨l, hl, hb, rfl⟩, List.mem_map_of_mem hp⟩
    · rintro ⟨_, ⟨-, rfl⟩ | ⟨l, hl, hb, rfl⟩, hp⟩
      · exact absurd hp (hmems p)
      · obtain ⟨p', hp', heq⟩ := List.mem_map.mp hp
        exact ⟨l.2, ⟨l, hl, MemObject.bank.inj heq ▸ hp', rfl⟩, hb⟩
  · obtain ⟨hb, rfl⟩ | ⟨l, hl, hb, rfl⟩ := mem_linkCalls.mp hps
    · refine .inl ⟨?_, rfl⟩
      exact ((mem_banksOf hbuilt).mp (hllc ▸ List.mem_of_getElem? hb)).1
    · obtain ⟨grp, cg, hcg, hparent, hchildren⟩ := hlinks.family l hl
      obtain ⟨child, hchild, hmem⟩ := hchildren b (List.mem_of_getElem? hb)
      exact .inr ⟨grp, cg, l.1, hcg, hparent, ((mem_banksOf hbuilt).mp hmem).1 ▸ hchild, rfl⟩

end Connect

/-! ### The cores -/

section Cores

variable {cfg : SysConfig} {m : Maps} {names terminal : List Name} {llc : Name}
  {cMap : List (Name × CacheGroup)}

/-- The terminal groups have caches of one bank. -/
def Single (cMap : List (Name × CacheGroup)) (grp : Name) : Prop :=
  ∃ cg, cMap.lookup grp = some cg ∧ ∀ cache ∈ cg, cache.length = 1

theorem checkTerminal_ends (hbuilt : Built m llc cMap) {grp : Name} (hgrp : grp ∈ names) :
    Ends (checkTerminal cMap grp) (fun _ => Single cMap grp) (Fault m names llc) := by
  unfold checkTerminal
  refine (deref_ends hbuilt hgrp).bind fun cg hcg => ?_
  split
  · exact Ends.throw (.of_plain ⟨nofun, nofun, nofun⟩)
  rename_i cache caches
  split
  · exact Ends.throw (.of_plain ⟨nofun, nofun, nofun⟩)
  · rename_i hlength
    obtain ⟨banks, hbanks⟩ := (hbuilt.groups _ (mem_of_lookup hcg)).uniform
    refine Ends.pure ⟨_, hcg, fun cache' hcache' => ?_⟩
    rw [hbanks cache' hcache', ← hbanks cache List.mem_cons_self, of_not_not hlength]

/-- The caches that have been taken: of each terminal group the first ones, each once. -/
structure Shared (cMap : List (Name × CacheGroup)) (terminal : List Name) (assigned : Name → ℕ)
    (taken : List Bank) : Prop where
  count : ∀ b, taken.count b =
    if b ∈ terminal.flatMap (banksOf cMap) ∧ b.cache < assigned b.group then 1 else 0
  filter : ∀ b ∈ taken, b.kind = .filter

/-- A bank of a terminal group by its group and cache. -/
theorem terminal_eq (hbuilt : Built m llc cMap) (hsingle : ∀ grp ∈ terminal, Single cMap grp)
    {b b' : Bank} (hb : b ∈ terminal.flatMap (banksOf cMap))
    (hb' : b' ∈ terminal.flatMap (banksOf cMap)) (hgroup : b.group = b'.group)
    (hcache : b.cache = b'.cache) : b = b' := by
  obtain ⟨grp, hgrp, hb⟩ := List.mem_flatMap.mp hb
  obtain ⟨grp', -, hb'⟩ := List.mem_flatMap.mp hb'
  obtain ⟨rfl, cg, hcg, hplace⟩ := (mem_banksOf hbuilt).mp hb
  obtain ⟨rfl, cg', hcg', hplace'⟩ := (mem_banksOf hbuilt).mp hb'
  obtain ⟨cg'', hcg'', hone⟩ := hsingle _ hgrp
  obtain rfl := Option.some.inj (hcg.symm.trans hcg'')
  obtain rfl := Option.some.inj (hcg.symm.trans (hgroup ▸ hcg'))
  obtain ⟨cache, hi, hj⟩ := Option.bind_eq_some_iff.mp hplace
  obtain ⟨cache', hi', hj'⟩ := Option.bind_eq_some_iff.mp hplace'
  obtain rfl := Option.some.inj (hi.symm.trans (hcache ▸ hi'))
  have hlength := hone cache (List.mem_of_getElem? hi)
  have h1 := (List.getElem?_eq_some_iff.mp hj).1
  have h2 := (List.getElem?_eq_some_iff.mp hj').1
  obtain ⟨h1, h2⟩ : b.bank = 0 ∧ b'.bank = 0 := by omega
  rw [h1] at hj
  rw [h2] at hj'
  exact Option.some.inj (hj.symm.trans hj')

theorem Shared.take (hbuilt : Built m llc cMap) (hsingle : ∀ grp ∈ terminal, Single cMap grp)
    {assigned : Name → ℕ} {taken : List Bank} (h : Shared cMap terminal assigned taken) {x : Bank}
    (hx : x ∈ terminal.flatMap (banksOf cMap)) (hnext : x.cache = assigned x.group)
    (hkind : x.kind = .filter) :
    Shared cMap terminal (Function.update assigned x.group (assigned x.group + 1))
      (taken ++ [x]) where
  count b := by
    rw [List.count_append, h.count]
    by_cases hb : b = x
    · subst hb
      rw [List.count_singleton_self, if_neg (by omega), Function.update_self,
        if_pos ⟨hx, by omega⟩]
    · rw [List.count_eq_zero.mpr (List.mem_singleton.not.mpr hb), Nat.add_zero]
      refine if_congr (and_congr_right fun hmem => ?_) rfl rfl
      by_cases hgroup : b.group = x.group
      · have hne : b.cache ≠ x.cache := fun hcache =>
          hb (terminal_eq hbuilt hsingle hmem hx hgroup hcache)
        rw [hgroup, Function.update_self]
        omega
      · rw [Function.update_of_ne hgroup]
  filter b hb := by
    obtain hb | hb := List.mem_append.mp hb
    · exact h.filter b hb
    · exact List.mem_singleton.mp hb ▸ hkind

theorem takeCache_ends (hbuilt : Built m llc cMap) (hsingle : ∀ grp ∈ terminal, Single cMap grp)
    (hnames : ∀ grp ∈ terminal, grp ∈ names) {name : Name} (hname : name ∈ terminal)
    {used : ℕ → Panic} (hused : ∀ n, Maps.Plain (used n)) {assigned : Name → ℕ}
    {taken : List Bank} (h : Shared cMap terminal assigned taken) :
    Ends (takeCache cMap name used assigned)
      (fun r => r.1.group = name ∧ Shared cMap terminal r.2 (taken ++ [r.1]))
      (Fault m names llc) := by
  unfold takeCache
  refine (deref_ends hbuilt (hnames name hname)).bind fun cg hcg => ?_
  split
  · exact Ends.throw (.of_plain (hused _))
  · exact Ends.throw (.of_plain ⟨nofun, nofun, nofun⟩)
  rename_i bank rest hcache
  split
  case isFalse => exact Ends.throw (.of_plain ⟨nofun, nofun, nofun⟩)
  case isTrue hkind =>
    have hplace : cg[assigned name]?.bind (·[0]?) = some bank := by rw [hcache]; rfl
    obtain ⟨rfl, hi, hj⟩ := (hbuilt.groups _ (mem_of_lookup hcg)).numbered _ _ _ hplace
    refine Ends.pure ⟨rfl, h.take hbuilt hsingle (List.mem_flatMap.mpr ⟨_, hname, ?_⟩) hi hkind⟩
    exact (mem_banksOf hbuilt).mpr ⟨rfl, cg, hcg, by rw [hi, hj]; exact hplace⟩

/-- The cores that have been built. -/
structure Staffed (cMap : List (Name × CacheGroup)) (terminal : List Name)
    (configs : List CoreConfig) (n : ℕ) (s : Assigning) : Prop where
  shared : Shared cMap terminal s.assigned (s.cores.flatMap (·.caches))
  ids : s.cores.map (·.srcId) = List.range s.cores.length
  length : s.cores.length = n
  config : ∀ core ∈ s.cores, ∃ c ∈ configs, core.group = c.name ∧ core.type = c.type ∧
    core.caches.map (·.group) = if c.type = .null then [] else [c.icache, c.dcache]

theorem Staffed.add {configs : List CoreConfig} {n j : ℕ} {s : Assigning}
    (h : Staffed cMap terminal configs n s) {c : CoreConfig} (hc : c ∈ configs) {taken : List Bank}
    {assigned : Name → ℕ} (hcaches : taken.map (·.group) =
      if c.type = .null then [] else [c.icache, c.dcache])
    (hshared : Shared cMap terminal assigned (s.cores.flatMap (·.caches) ++ taken)) :
    Staffed cMap terminal configs (n + 1)
      ⟨assigned, s.cores ++ [⟨c.name, j, c.type, s.cores.length, taken⟩]⟩ where
  shared := by simpa using hshared
  ids := by simp [h.ids, List.range_succ]
  length := by simp [h.length]
  config core hcore := by
    obtain hcore | hcore := List.mem_append.mp hcore
    · exact h.config core hcore
    · obtain rfl := List.mem_singleton.mp hcore
      exact ⟨c, hc, rfl, rfl, hcaches⟩

theorem buildCore_ends (hbuilt : Built m llc cMap) (hsingle : ∀ grp ∈ terminal, Single cMap grp)
    (hnames : ∀ grp ∈ terminal, grp ∈ names) {configs : List CoreConfig} {n : ℕ} {s : Assigning}
    (h : Staffed cMap terminal configs n s) {c : CoreConfig} (hc : c ∈ configs)
    (hicache : c.type ≠ .null → c.icache ∈ terminal)
    (hdcache : c.type ≠ .null → c.dcache ∈ terminal) (j : ℕ) :
    Ends (buildCore cMap c s j) (Staffed cMap terminal configs (n + 1)) (Fault m names llc) := by
  unfold buildCore
  dsimp only
  split
  case isTrue hnull =>
    exact Ends.pure (h.add hc (by rw [if_pos hnull]; rfl) (by simpa using h.shared))
  case isFalse hnull =>
    refine (takeCache_ends hbuilt hsingle hnames (hicache hnull) ?_ h.shared).bind ?_
    · exact fun _ => ⟨nofun, nofun, nofun⟩
    rintro ⟨ic, assigned⟩ ⟨hic, hshared⟩
    refine (takeCache_ends hbuilt hsingle hnames (hdcache hnull) ?_ hshared).bind ?_
    · exact fun _ => ⟨nofun, nofun, nofun⟩
    rintro ⟨dc, assigned⟩ ⟨hdc, hshared⟩
    refine Ends.pure (h.add hc ?_ ?_)
    · rw [if_neg hnull, List.map_cons, List.map_singleton, hic, hdc]
    · rw [List.append_assoc] at hshared
      exact hshared

theorem not_contains {grp : Name} {names : List Name} :
    (!names.contains grp) = true ↔ grp ∉ names := by
  rw [Bool.not_eq_true', ← Bool.not_eq_true, List.contains_iff_mem]

theorem buildCoreGroup_ends (hbuilt : Built m llc cMap)
    (hsingle : ∀ grp ∈ cfg.cacheGroupNames.filter m.isTerminal, Single cMap grp) {n : ℕ}
    {s : Assigning} (h : Staffed cMap (cfg.cacheGroupNames.filter m.isTerminal) cfg.cores n s)
    {c : CoreConfig} (hc : c ∈ cfg.cores) :
    Ends (buildCoreGroup cfg cMap m s c)
      (Staffed cMap (cfg.cacheGroupNames.filter m.isTerminal) cfg.cores (n + c.cores))
      (Fault m cfg.cacheGroupNames llc) := by
  unfold buildCoreGroup
  dsimp only
  split
  · exact Ends.throw (.of_plain ⟨nofun, nofun, nofun⟩)
  split
  · exact Ends.throw (.of_plain ⟨nofun, nofun, nofun⟩)
  split
  · exact Ends.throw (.of_plain ⟨nofun, nofun, nofun⟩)
  rename_i hicache
  split
  · exact Ends.throw (.of_plain ⟨nofun, nofun, nofun⟩)
  rename_i hdcache
  refine (Ends.foldlM (fun past s =>
    Staffed cMap (cfg.cacheGroupNames.filter m.isTerminal) cfg.cores (n + past.length) s) h
    fun past j s _ hs => ?_).mono (fun s hs => ?_) fun _ he => he
  · rw [List.length_append, List.length_singleton, ← Nat.add_assoc]
    exact buildCore_ends hbuilt hsingle (fun grp hgrp => (List.mem_filter.mp hgrp).1) hs hc
      (fun hnull => of_not_not fun hno => hicache ⟨hnull, not_contains.mpr hno⟩)
      (fun hnull => of_not_not fun hno => hdcache ⟨hnull, not_contains.mpr hno⟩) j
  · rwa [List.length_range] at hs

theorem Staffed.init (cMap : List (Name × CacheGroup)) (terminal : List Name)
    (configs : List CoreConfig) : Staffed cMap terminal configs 0 {} where
  shared := ⟨fun _ => (if_neg fun h => absurd h.2 (Nat.not_lt_zero _)).symm, List.forall_mem_nil _⟩
  ids := rfl
  length := rfl
  config := List.forall_mem_nil _

theorem buildCores_ends (hbuilt : Built m llc cMap)
    (hsingle : ∀ grp ∈ cfg.cacheGroupNames.filter m.isTerminal, Single cMap grp) :
    Ends (cfg.cores.foldlM (buildCoreGroup cfg cMap m) {})
      (Staffed cMap (cfg.cacheGroupNames.filter m.isTerminal) cfg.cores cfg.numCores)
      (Fault m cfg.cacheGroupNames llc) := by
  refine Ends.foldlM (fun (past : List CoreConfig) s => Staffed cMap
    (cfg.cacheGroupNames.filter m.isTerminal) cfg.cores (past.map (·.cores)).sum s)
    (Staffed.init ..) fun past c s hc hs => ?_
  rw [List.map_append, List.sum_append, List.map_singleton, List.sum_singleton]
  exact buildCoreGroup_ends hbuilt hsingle hs hc

theorem checkAssigned_ends (hbuilt : Built m llc cMap) {assigned : Name → ℕ} {grp : Name}
    (hgrp : grp ∈ names) : Ends (checkAssigned cMap assigned grp)
      (fun _ => ∃ cg, cMap.lookup grp = some cg ∧ assigned grp = cg.length)
      (Fault m names llc) := by
  unfold checkAssigned
  refine (deref_ends hbuilt hgrp).bind fun cg hcg => ?_
  split
  · exact Ends.throw (.of_plain ⟨nofun, nofun, nofun⟩)
  · rename_i heq
    exact Ends.pure ⟨cg, hcg, of_not_not heq⟩

/-- When all are assigned, all banks of the terminal groups have been taken. -/
theorem Shared.perm (hbuilt : Built m llc cMap) (hnodup : terminal.Nodup) {assigned : Name → ℕ}
    {taken : List Bank} (h : Shared cMap terminal assigned taken)
    (hall : ∀ grp ∈ terminal, ∃ cg, cMap.lookup grp = some cg ∧ assigned grp = cg.length) :
    taken.Perm (terminal.flatMap (banksOf cMap)) := by
  refine List.perm_iff_count.mpr fun b => ?_
  rw [h.count]
  split
  case isTrue hb => exact (List.count_eq_one_of_mem (flatMap_banks_nodup hbuilt hnodup) hb.1).symm
  case isFalse hb =>
    refine (List.count_eq_zero.mpr fun hmem => hb ⟨hmem, ?_⟩).symm
    obtain ⟨grp, hgrp, hmem⟩ := List.mem_flatMap.mp hmem
    obtain ⟨rfl, cg, hcg, hplace⟩ := (mem_banksOf hbuilt).mp hmem
    obtain ⟨cg', hcg', hlength⟩ := hall _ hgrp
    obtain rfl := Option.some.inj (hcg.symm.trans hcg')
    obtain ⟨cache, hi, -⟩ := Option.bind_eq_some_iff.mp hplace
    rw [hlength]
    exact (List.getElem?_eq_some_iff.mp hi).1

end Cores

/-! ### The system -/

section System

variable {cfg : SysConfig} {m : Maps} {llc : Name} {cMap : List (Name × CacheGroup)}

/-- The errors of `InitSystem`: never a loop in the tree, which goes by as a null pointer. -/
def InitFault (cfg : SysConfig) (e : Panic) : Prop :=
  (∀ group, e ≠ .loop group) ∧ (∀ numCores coreIdx, e ≠ .coreCount numCores coreIdx) ∧
    ∀ group, e = .null group → ∃ y, Descends cfg.childGroups y group ∧
      Relation.TransGen (ChildOf cfg.childGroups) y y

theorem InitFault.of_plain {e : Panic} (h : Maps.Plain e) : InitFault cfg e :=
  ⟨h.1, h.2.1, fun group heq => absurd heq (h.2.2 group)⟩

theorem InitFault.of_fault (hroot : Rooted cfg.cacheGroupNames m.childGroups llc)
    (hchildren : m.childGroups = cfg.childGroups) {e : Panic}
    (h : Fault m cfg.cacheGroupNames llc e) : InitFault cfg e := by
  refine ⟨h.1, h.2.1, fun group heq => ?_⟩
  obtain ⟨hgroup, hstray⟩ := h.2.2 group heq
  exact hchildren ▸ hroot.cycle hgroup hstray

theorem buildMems_ends (cfg : SysConfig) :
    Ends (buildMems cfg) (fun mems => ∀ b, .bank b ∉ mems) Maps.Plain := by
  unfold buildMems
  split
  · exact Ends.throw ⟨nofun, nofun, nofun⟩
  split
  · exact Ends.pure fun b => by simp
  · exact Ends.pure fun b => by simp

theorem connectLLC_ends (cfg : SysConfig) (llcBanks : List Bank) (mems : List MemObject) :
    Ends (connectLLC cfg llcBanks mems) (fun calls => calls = llcBanks.zipIdx.map
      fun (bank, childId) => Call.setParents bank childId mems) Maps.Plain :=
  (check_ends cfg.network _).bind fun _ _ => Ends.pure rfl

/-- The groups that have been built, when none is missing. -/
theorem built_perm (hroot : Rooted cfg.cacheGroupNames m.childGroups llc)
    (hbuilt : Built m llc cMap) (hsome : ∀ grp ∈ cfg.cacheGroupNames, (cMap.lookup grp).isSome) :
    (cMap.map (·.1)).Perm cfg.cacheGroupNames := by
  refine (List.perm_ext_iff_of_nodup hbuilt.distinct hroot.distinct).mpr fun name => ?_
  refine ⟨fun hname => ?_, fun hname => lookup_isSome.mp (hsome name hname)⟩
  obtain rfl | ⟨p, -, hp⟩ := (hbuilt.descend name).mp hname |>.cases_tail
  · exact hroot.root_mem
  · exact hroot.closed name (hroot.mem_flatMap hp)

theorem initSystem_ends (cfg : SysConfig) :
    Ends (initSystem cfg) (fun sys => sys.Tree cfg ∧ sys.Wired ∧ sys.Assigned cfg)
      (InitFault cfg) := by
  unfold initSystem
  dsimp only
  refine ((Maps.readGroups_read cfg.caches).mono (fun _ h => h) fun _ => .of_plain).bind
    fun m hread => ?_
  refine ((Maps.checkChildren_ends m cfg.cacheGroupNames).mono (fun _ h => h)
    fun _ => .of_plain).bind fun _ hvalid => ?_
  refine ((Maps.lastLevel_ends hread hvalid).mono (fun _ h => h) fun _ => .of_plain).bind
    fun llc hroot => ?_
  refine ((buildGroups_ends hroot hread.names).mono (fun _ h => h) fun _ => .of_plain).bind
    fun cMap hbuilt => ?_
  have hfault (e : Panic) : Fault m cfg.cacheGroupNames llc e → InitFault cfg e :=
    .of_fault hroot hread.childGroups_eq
  refine ((deref_ends hbuilt hroot.root_mem).mono (fun _ h => h) hfault).bind
    fun llcCaches hllc => ?_
  split
  · exact Ends.throw (.of_plain ⟨nofun, nofun, nofun⟩)
  refine ((buildMems_ends cfg).mono (fun _ h => h) fun _ => .of_plain).bind fun mems hmems => ?_
  refine ((connectLLC_ends cfg llcCaches.flatten mems).mono (fun _ h => h)
    fun _ => .of_plain).bind ?_
  rintro _ rfl
  refine ((connect_ends hroot hbuilt fun grp hgrp => (List.mem_filter.mp hgrp).1).mono
    (fun _ h => h) hfault).bind ?_
  rintro calls ⟨hinner, links, hlinks, hcalls⟩
  refine ((Ends.forM _ fun grp hgrp => checkTerminal_ends hbuilt (List.mem_filter.mp hgrp).1).mono
    (fun _ h => h) hfault).bind fun _ hsingle => ?_
  refine ((buildCores_ends hbuilt hsingle).mono (fun _ h => h) hfault).bind fun s hstaff => ?_
  refine ((Ends.forM _ fun grp hgrp => checkAssigned_ends hbuilt (List.mem_filter.mp hgrp).1).mono
    (fun _ h => h) hfault).bind fun _ hassigned => ?_
  rw [if_neg (by rw [hstaff.length]; exact fun h => h rfl)]
  have hall : (cMap.map (·.1)).Perm cfg.cacheGroupNames := by
    refine built_perm hroot hbuilt fun grp hgrp => ?_
    cases hterminal : m.isTerminal grp with
    | true =>
      obtain ⟨cg, hcg, -⟩ := hsingle grp (List.mem_filter.mpr ⟨hgrp, hterminal⟩)
      exact hcg ▸ rfl
    | false => exact hinner grp (List.mem_filter.mpr ⟨hgrp, by rw [hterminal]; rfl⟩)
  have hdescend : ∀ group ∈ cfg.cacheGroupNames, Descends m.childGroups llc group :=
    fun group hgroup => (hbuilt.descend group).mp (hall.mem_iff.mpr hgroup)
  refine Ends.pure ⟨⟨hall, hread.childGroups_eq, hread.childGroups_eq ▸ hdescend, ?_⟩, ?_, ?_⟩
  · exact fun group hgroup => hread.childGroups_eq ▸ hroot.acyclic (hdescend group hgroup)
  · rw [hcalls]
    exact wired hroot hbuilt hall (by rw [banksOf, hllc, Option.getD_some]) hmems hlinks
  · refine ⟨?_, hstaff.shared.filter, hstaff.length ▸ hstaff.ids, hstaff.config⟩
    have hbanks : (cMap.flatMap fun p => p.2.flatten).Perm
        (cfg.cacheGroupNames.flatMap (banksOf cMap)) :=
      banks_eq hbuilt ▸ hall.flatMap_right _
    refine (hstaff.shared.perm hbuilt (hroot.distinct.filter _) hassigned).trans ?_
    rw [← filter_banks hbuilt]
    exact (hbanks.filter _).symm

theorem initSystem_tree (cfg : SysConfig) :
    Ends (initSystem cfg) (SimSystem.Tree cfg) (InitFault cfg) :=
  (initSystem_ends cfg).mono (fun _ h => h.1) fun _ he => he

/-- The caches `b` and `c` are each other's only children. -/
def cyclicGroups : SysConfig where
  caches := [{ name := ['l'] }, { name := ['b'], children := ['c'] },
    { name := ['c'], children := ['b'] }]
  cores := []

/-- No child is missing and none has two parents, so that the checks pass. -/
theorem initSystem_tree_cycle : initSystem cyclicGroups = throw (.null ['b']) ∧
    ∃ y, Descends cyclicGroups.childGroups y ['b'] ∧
      Relation.TransGen (ChildOf cyclicGroups.childGroups) y y := by
  have hnull : initSystem cyclicGroups = throw (.null ['b']) := rfl
  exact ⟨hnull, ((initSystem_tree cyclicGroups).error hnull).2.2 ['b'] rfl⟩

theorem initSystem_wired (cfg : SysConfig) :
    Ends (initSystem cfg) SimSystem.Wired fun _ => True :=
  (initSystem_ends cfg).mono (fun _ h => h.2.1) fun _ _ => trivial

theorem initSystem_assigned (cfg : SysConfig) :
    Ends (initSystem cfg) (SimSystem.Assigned cfg)
      fun e => ∀ numCores coreIdx, e ≠ .coreCount numCores coreIdx :=
  (initSystem_ends cfg).mono (fun _ h => h.2.2) fun _ he => he.2.1

/-- Two cores with a cache of two banks. -/
def twoCores : SysConfig where
  caches := [{ name := ['i'], caches := 2 }, { name := ['d'], caches := 2 },
    { name := ['l'], children := ['i', '|', 'd'], banks := 2 }]
  cores := [{ name := ['c'], cores := 2, icache := ['i'], dcache := ['d'] }]

example : (initSystem twoCores).run.map (·.map fun sys => sys.cores.map (·.caches.map (·.group))) =
    some (.ok [[['i'], ['d']], [['i'], ['d']]]) := rfl

end System

end Doppelganger.Hierarchy

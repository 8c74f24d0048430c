import Doppelganger.Repl.SetAssoc

/-! Runs of the cache: it goes along with sets that drop the line that was least recently accessed,
and so has the lines with a short stack distance. -/

namespace Doppelganger.SetAssoc

open List Lib Doppelganger.Repl MESIState

/-! ### The controllers -/

section

variable {req : Request} {st st' : MESIState}

theorem processWritebackOnAccess_ne {wb : Bool} (h : processWritebackOnAccess wb st = some st')
    (hst : st ≠ I) : st' ≠ I := by
  unfold processWritebackOnAccess at h
  split at h
  · split at h
    · cases h
      exact MESIState.noConfusion
    · cases h
  · cases h
    exact hst

/-- An access leaves a valid line. -/
theorem processAccess_ne (h : processAccess req st = some st') : st' ≠ I := by
  obtain ⟨⟨fs, node⟩, habove, hwb⟩ := Option.bind_eq_some_iff.mp h
  refine processWritebackOnAccess_ne hwb fun hI => ?_
  cases htype : req.type <;> cases st <;> cases hgranted : req.granted <;>
    simp [Mesi.bccProcessAccess, Mesi.Node.state, Mesi.Node.setState, htype, hgranted] at habove <;>
    simp [Mesi.Node.state, ← habove.2] at hI

/-- A write-back needs the line. -/
theorem processAccess_put (htype : isGet req.type = false) : processAccess req I = none := by
  cases h : req.type <;> simp [isGet, h] at htype <;>
    simp [processAccess, Mesi.bccProcessAccess, Mesi.Node.state, h]

theorem processInval_invalid (type : InvType) : processInval type I = none := rfl

end

/-! ### Steps -/

section

variable {cfg : Config} {s : Cache} {t : LruSets} {a : Address} {id : Nat} {req : Request}

theorem Config.assoc_pos (cfg : Config) : 0 < cfg.assoc := by
  have hpos := isPow2_pos cfg.pow2
  apply Nat.pos_of_ne_zero
  intro hzero
  rw [hzero, Nat.div_zero] at hpos
  exact Nat.lt_irrefl 0 hpos

theorem Refines.takes_hit (h : Refines cfg s t) (hid : lookup cfg a s.array = some id) :
    Takes cfg s a id where
  mem := (lookup_some hid).1
  found := by
    rw [← (lookup_some hid).2, Function.update_eq_self, (lookup_some hid).2]
    exact hid
  only j hj hvalid hja := h.only hj hvalid (by rw [hja, hid])
  last _ hne := absurd (lookup_some hid).2 hne

/-- The candidate is not valid, or all lines of the set are and it was updated before them. -/
theorem Refines.takes_miss (h : Refines cfg s t) (hmiss : lookup cfg a s.array = none)
    (htime : s.rp.timestamp ≤ 2 ^ 32) : Takes cfg s a (preinsert cfg a s) := by
  obtain ⟨hmem, hleast⟩ := preinsert_spec a cfg.assoc_pos
    fun id => (h.stamps id).trans_le htime
  refine ⟨hmem, lookup_inserted hmem hmiss, fun j hj _ hja => absurd hja (lookup_none hmiss j hj),
    fun hvalid _ ids hids => ?_⟩
  simp only [if_neg hvalid] at hleast
  have hpos := h.updated _ _ hmem hvalid
  have hall : ∀ c ∈ cfg.ways (cfg.set a), s.state c ≠ I ∧
      s.rp.array (preinsert cfg a s) ≤ s.rp.array c := by
    intro c hc
    have hle := hleast c hc
    split at hle
    · omega
    · next hI => exact ⟨hI, hle⟩
  constructor
  · refine Nat.le_antisymm hids.length_le ?_
    have hsub : cfg.ways (cfg.set a) ⊆ ids :=
      fun c hc => (hids.mem c).mpr ⟨hc, (hall c hc).1⟩
    have hle := ((nodup_range' (s := cfg.set a * cfg.assoc)).subperm hsub).length_le
    rwa [length_range'] at hle
  · have hid : preinsert cfg a s ∈ ids := (hids.mem _).mpr ⟨hmem, hvalid⟩
    cases hlast : ids.getLast? with
    | none =>
      rw [getLast?_eq_none_iff.mp hlast] at hid
      exact absurd hid not_mem_nil
    | some x =>
      by_contra hne
      have hx := (hall x ((hids.mem x).mp (mem_of_getLast? hlast)).1).2
      rcases hids.stamped.last hlast _ hid fun heq => hne (by rw [heq]) with hlt | ⟨hzero, -⟩
      · omega
      · omega

theorem victim_hit (h : Refines cfg s t) (hid : lookup cfg a s.array = some id) :
    LruSets.victim cfg.assoc a (t.lines (cfg.set a)) = none := by
  obtain ⟨ids, hids, hlines⟩ := h.lines (cfg.set a)
  rw [hlines, (h.takes_hit hid).victim hids, if_pos (.inr (lookup_some hid).2)]

theorem victim_miss (h : Refines cfg s t) (hmiss : lookup cfg a s.array = none)
    (htakes : Takes cfg s a id) : LruSets.victim cfg.assoc a (t.lines (cfg.set a)) =
      if s.state id = I then none else some (s.array id) := by
  obtain ⟨ids, hids, hlines⟩ := h.lines (cfg.set a)
  rw [hlines, htakes.victim hids]
  have hne := lookup_none hmiss id htakes.mem
  simp only [hne, or_false]

/-- What the steps of a cache and of the sets it refines lead to. -/
def Goes (cfg : Config) (s : Cache) (updates : Nat) : Option Cache → Option LruSets → Prop :=
  Option.Rel fun s' t' => Refines cfg s' t' ∧ s'.rp.timestamp = s.rp.timestamp + updates

theorem goes_map {o : Option MESIState} {n : Nat} {f : MESIState → Cache} {g : MESIState → LruSets}
    (h : ∀ st, o = some st → Refines cfg (f st) (g st) ∧ (f st).rp.timestamp = s.rp.timestamp + n) :
    Goes cfg s n (o.map f) (o.map g) := by
  cases o with
  | none => exact .none
  | some st => exact .some (h st rfl)

/-- An access that fills `id`. -/
theorem Refines.goes_taken (h : Refines cfg s t) (htakes : Takes cfg s req.lineAddr id)
    (htime : s.rp.timestamp ≤ 2 ^ 32) (state : Address → MESIState) (st : MESIState)
    (hstate : ∀ b ≠ req.lineAddr,
      state b = if s.state id ≠ I ∧ s.array id = b then I else t.state b)
    (sent : List (AccessType × Address)) :
    Goes cfg s 1 ((processAccess req st).map fun st => s.taken req.lineAddr id st sent)
      ((processAccess req st).map fun st =>
        ⟨Function.update t.lines (cfg.set req.lineAddr)
            (lruAccess cfg.assoc req.lineAddr (t.lines (cfg.set req.lineAddr))),
          Function.update state req.lineAddr st, sent⟩) := by
  have hword : s.rp.timestamp + 1 < 2 ^ 64 := by omega
  refine goes_map fun st hst => ⟨h.taken htakes (processAccess_ne hst) hword hstate, ?_⟩
  exact Nat.mod_eq_of_lt hword

theorem taken_hit (hid : s.array id = a) (st : MESIState) :
    s.taken a id st s.sent =
      { s with rp := s.rp.update id, state := Function.update s.state id st } := by
  rw [Cache.taken, ← hid, Function.update_eq_self]

theorem replaced_update (rp : Lru) (id : Nat) : (rp.replaced id).update id = rp.update id := by
  unfold Lru.update Lru.replaced
  congr
  funext i
  dsimp only
  split <;> rfl

theorem access_hit (h : Refines cfg s t) (hid : lookup cfg req.lineAddr s.array = some id)
    (hget : isGet req.type = true) (htime : s.rp.timestamp ≤ 2 ^ 32) :
    Goes cfg s 1 (access cfg req s) (t.access cfg req) := by
  have hstate : t.state req.lineAddr = s.state id := by
    rw [h.state, Refines.stateOf_some hid]
  have hgoes := h.goes_taken (h.takes_hit hid) htime t.state (s.state id)
    (fun b hb => by
      rw [if_neg]
      rintro ⟨-, hidb⟩
      exact hb (hidb.symm.trans (lookup_some hid).2)) s.sent
  simp only [taken_hit (lookup_some hid).2] at hgoes
  rw [LruSets.access, if_pos hget, access]
  dsimp only
  rw [victim_hit h hid, hid]
  dsimp only
  rw [if_pos hget, LruSets.evict, Option.bind_some, LruSets.fill, LruSets.touch, hstate, fill,
    ← h.sent]
  exact hgoes

theorem access_miss (h : Refines cfg s t) (hmiss : lookup cfg req.lineAddr s.array = none)
    (hget : isGet req.type = true) (htime : s.rp.timestamp ≤ 2 ^ 32) :
    Goes cfg s 1 (access cfg req s) (t.access cfg req) := by
  have htakes := h.takes_miss hmiss htime
  have hstate : t.state req.lineAddr = I := by
    rw [h.state, Refines.stateOf_none hmiss]
  have hvictim := victim_miss h hmiss htakes
  rw [LruSets.access, if_pos hget, access]
  dsimp only
  rw [hmiss, hvictim]
  dsimp only
  rw [if_pos hget]
  generalize preinsert cfg req.lineAddr s = id at htakes ⊢
  have hne := lookup_none hmiss id htakes.mem
  have hfill : ∀ sent, fill req id (postinsert req.lineAddr id
      { s with state := Function.update s.state id I, sent := sent }) =
        (processAccess req I).map fun st => s.taken req.lineAddr id st sent := by
    intro sent
    unfold fill postinsert Cache.taken
    dsimp only
    rw [Function.update_self, replaced_update]
    simp only [Function.update_idem]
  rw [evict, LruSets.evict.eq_def]
  by_cases hI : s.state id = I
  · rw [if_pos hI, hI, processEviction, if_pos rfl]
    simp only [Option.map_some, Option.bind_some, map_nil, append_nil]
    rw [hfill, LruSets.fill, LruSets.touch, hstate, ← h.sent]
    exact h.goes_taken htakes htime t.state I (fun b _ => by rw [if_neg fun hb => hb.1 hI]) s.sent
  · have hvictimState : t.state (s.array id) = s.state id := by
      rw [h.state, Refines.stateOf_some (h.found _ id htakes.mem hI).2]
    rw [if_neg hI]
    dsimp only
    rw [hvictimState]
    cases processEviction req.victimWriteback (s.state id) with
    | none => exact .none
    | some types =>
      simp only [Option.map_some, Option.bind_some]
      rw [hfill, LruSets.fill, LruSets.touch]
      dsimp only
      rw [Function.update_of_ne hne.symm, hstate, ← h.sent]
      refine h.goes_taken htakes htime _ I (fun b _ => ?_) _
      by_cases hb : s.array id = b
      · rw [if_pos ⟨hI, hb⟩, ← hb, Function.update_self]
      · rw [if_neg fun hlost => hb hlost.2, Function.update_of_ne (Ne.symm hb)]

/-- A write-back, which leaves the policy alone. -/
theorem access_put (h : Refines cfg s t) (hget : isGet req.type = false) :
    Goes cfg s 0 (access cfg req s) (t.access cfg req) := by
  rw [LruSets.access, if_neg (by simp [hget]), access, LruSets.fill, h.state]
  dsimp only
  cases hid : lookup cfg req.lineAddr s.array with
  | none =>
    rw [Refines.stateOf_none hid, processAccess_put hget]
    dsimp only
    rw [if_neg (by simp [hget])]
    exact .none
  | some id =>
    rw [Refines.stateOf_some hid]
    dsimp only
    rw [if_neg (by simp [hget]), fill]
    refine goes_map fun st hst => ⟨?_, rfl⟩
    have hvalid : s.state id ≠ I := by
      intro hI
      rw [hI, processAccess_put hget] at hst
      cases hst
    have hset := h.setState hid hvalid st
    rwa [if_neg (processAccess_ne hst)] at hset

theorem invalidate_goes (h : Refines cfg s t) (type : InvType) (a : Address) :
    Goes cfg s 0 (finishInvalidate cfg type a s) (t.invalidate cfg type a) := by
  rw [LruSets.invalidate, finishInvalidate, h.state]
  cases hid : lookup cfg a s.array with
  | none =>
    rw [Refines.stateOf_none hid, processInval_invalid]
    exact .none
  | some id =>
    rw [Refines.stateOf_some hid, Option.bind_some]
    refine goes_map fun st hst => ⟨?_, rfl⟩
    have hvalid : s.state id ≠ I := by
      intro hI
      rw [hI, processInval_invalid] at hst
      cases hst
    exact h.setState hid hvalid st

theorem Refines.step (h : Refines cfg s t) (op : Op)
    (htime : s.rp.timestamp + op.get.toList.length ≤ 2 ^ 32 + 1) :
    Goes cfg s op.get.toList.length (SetAssoc.step cfg op s) (LruSets.step cfg op t) := by
  cases op with
  | invalidate type a => exact invalidate_goes h type a
  | access req =>
    cases hget : isGet req.type with
    | false =>
      simp only [Op.get, hget, Bool.false_eq_true, if_false] at htime ⊢
      exact access_put h hget
    | true =>
      simp only [Op.get, hget, if_true] at htime ⊢
      have htime : s.rp.timestamp ≤ 2 ^ 32 := Nat.le_of_succ_le_succ htime
      cases hid : lookup cfg req.lineAddr s.array with
      | none => exact access_miss h hid hget htime
      | some id => exact access_hit h hid hget htime

theorem gets_cons (op : Op) (ops : List Op) :
    (gets (op :: ops)).length = op.get.toList.length + (gets ops).length := by
  unfold gets
  rw [filterMap_cons]
  cases op.get with
  | none => exact (Nat.zero_add _).symm
  | some a =>
    rw [length_cons, Nat.add_comm]
    rfl

theorem Refines.run (ops : List Op) (h : Refines cfg s t)
    (htime : s.rp.timestamp + (gets ops).length ≤ 2 ^ 32 + 1) :
    Option.Rel (Refines cfg) (Lib.run (SetAssoc.step cfg) ops s)
      (Lib.run (LruSets.step cfg) ops t) := by
  induction ops generalizing s t with
  | nil => exact .some h
  | cons op ops ih =>
    rw [gets_cons, ← Nat.add_assoc] at htime
    have hstep := h.step op (Nat.le_trans (Nat.le_add_right _ _) htime)
    rw [Lib.run, Lib.run]
    revert hstep
    generalize SetAssoc.step cfg op s = x
    generalize LruSets.step cfg op t = y
    intro hstep
    cases hstep with
    | none => exact .none
    | some hnext => exact ih hnext.1 (by rwa [hnext.2])

theorem Refines.run_start (cfg : Config) (ops : List Op) (hcount : (gets ops).length ≤ 2 ^ 32) :
    Option.Rel (Refines cfg) (Lib.run (SetAssoc.step cfg) ops SetAssoc.start)
      (Lib.run (LruSets.step cfg) ops LruSets.start) := by
  refine (Refines.start cfg).run ops ?_
  rw [Nat.add_comm]
  exact Nat.add_le_add_right hcount 1

end

/-- A cache with a set-associative array and the LRU policy answers every run of up to `2 ^ 32`
accesses as sets that drop the line that was least recently accessed: it fails when they do, has the
same lines in the same states, and has sent the same write-backs. -/
theorem lru_refined (cfg : Config) (ops : List Op) (hcount : (gets ops).length ≤ 2 ^ 32) :
    (run (step cfg) ops start).map (fun s => (s.stateOf cfg, s.sent)) =
        (run (LruSets.step cfg) ops LruSets.start).map (fun t => (t.state, t.sent)) ∧
      ∀ t, run (LruSets.step cfg) ops LruSets.start = some t →
        ∀ a, a ∈ t.lines (cfg.set a) ↔ t.state a ≠ I := by
  have hrun := Refines.run_start cfg ops hcount
  generalize run (step cfg) ops start = x at hrun ⊢
  generalize run (LruSets.step cfg) ops LruSets.start = y at hrun ⊢
  cases hrun with
  | none => exact ⟨rfl, fun t ht => by cases ht⟩
  | some h =>
    constructor
    · rw [Option.map_some, Option.map_some, ← h.sent, funext h.state]
    · intro t ht a
      cases ht
      exact h.mem_lines

/-! ### Stack distances -/

section

variable {cfg : Config} {t t' : LruSets} {op : Op} {req : Request} {a : Address}

theorem LruSets.fill_lines (h : t.fill req = some t') : t'.lines = t.lines := by
  obtain ⟨st, -, rfl⟩ := Option.map_eq_some_iff.mp h
  rfl

theorem LruSets.evict_lines {victim : Option Address} (h : t.evict req victim = some t') :
    t'.lines = t.lines := by
  cases victim with
  | none =>
    cases h
    rfl
  | some b =>
    obtain ⟨types, -, rfl⟩ := Option.map_eq_some_iff.mp h
    rfl

/-- Only an INV takes a line out of its set. -/
theorem processInval_ne {type : InvType} {st st' : MESIState} (htype : type ≠ .INV)
    (h : processInval type st = some st') : st' ≠ I := by
  rintro rfl
  cases type with
  | INV => exact htype rfl
  | INVX => cases st <;> cases h
  | FWD => cases st <;> cases h

/-- What an operation does to the sets, when it is not an INV. -/
theorem LruSets.step_lines (h : LruSets.step cfg op t = some t')
    (hinv : ∀ a, op ≠ .invalidate .INV a) :
    t'.lines = match op.get with
      | none => t.lines
      | some a =>
        Function.update t.lines (cfg.set a) (lruAccess cfg.assoc a (t.lines (cfg.set a))) := by
  cases op with
  | access req =>
    rw [LruSets.step, LruSets.access] at h
    rw [Op.get]
    dsimp only at h ⊢
    split at h
    · next hget =>
      rw [if_pos hget]
      obtain ⟨t1, hevict, hfill⟩ := Option.bind_eq_some_iff.mp h
      rw [fill_lines hfill, LruSets.touch, evict_lines hevict]
    · next hget =>
      rw [if_neg hget]
      exact fill_lines h
  | invalidate type a =>
    obtain ⟨st, hst, rfl⟩ := Option.map_eq_some_iff.mp h
    have htype : type ≠ .INV := by
      rintro rfl
      exact hinv a rfl
    exact if_neg (processInval_ne htype hst)

/-- Each set holds the first lines of the stack of its accesses. -/
theorem LruSets.run_lines (ops : List Op) (hinv : ∀ op ∈ ops, ∀ a, op ≠ .invalidate .INV a)
    (past : List Address)
    (hlines : ∀ k, t.lines k = (touchAll (past.filter (cfg.set · = k)) []).take cfg.assoc)
    (h : run (LruSets.step cfg) ops t = some t') (k : Nat) :
    t'.lines k = (touchAll ((past ++ gets ops).filter (cfg.set · = k)) []).take cfg.assoc := by
  induction ops generalizing t past with
  | nil =>
    cases h
    rw [gets, filterMap_nil, append_nil]
    exact hlines k
  | cons op ops ih =>
    rw [Lib.run] at h
    obtain ⟨t1, hstep, hrun⟩ := Option.bind_eq_some_iff.mp h
    have hlines1 := LruSets.step_lines hstep (hinv op mem_cons_self)
    have hrest := fun op' hop' => hinv op' (mem_cons_of_mem op hop')
    rw [gets, filterMap_cons]
    cases hget : op.get with
    | none =>
      rw [hget] at hlines1
      refine ih hrest past (fun k => ?_) hrun
      rw [hlines1]
      exact hlines k
    | some a =>
      rw [hget] at hlines1
      have hnext := ih hrest (past ++ [a]) (fun k => ?_) hrun
      · rwa [append_assoc, singleton_append] at hnext
      · rw [hlines1, filter_append]
        dsimp only
        by_cases hk : k = cfg.set a
        · rw [hk, Function.update_self, hlines, lruAccess_take]
          simp [touchAll]
        · rw [Function.update_of_ne hk, hlines]
          simp [Ne.symm hk]

end

/-- In a run without INVs the cache has a line when, since its last access, fewer other lines of its
set were accessed than the set has ways. -/
theorem lru_stack_distance (cfg : Config) (ops : List Op) (hcount : (gets ops).length ≤ 2 ^ 32)
    (hinv : ∀ op ∈ ops, ∀ a, op ≠ .invalidate .INV a) {s : Cache}
    (h : run (step cfg) ops start = some s) (a : Address) :
    s.stateOf cfg a ≠ I ↔ ∃ before after, gets ops = before ++ a :: after ∧ a ∉ after ∧
      (after.filter (cfg.set · = cfg.set a)).dedup.length < cfg.assoc := by
  have hrun := Refines.run_start cfg ops hcount
  rw [h] at hrun
  cases hsets : run (LruSets.step cfg) ops LruSets.start with
  | none =>
    rw [hsets] at hrun
    cases hrun
  | some t =>
    rw [hsets] at hrun
    cases hrun with
    | some hrefines =>
      have hlines := LruSets.run_lines ops hinv [] (fun k => take_nil.symm) hsets (cfg.set a)
      rw [← hrefines.state, ← hrefines.mem_lines, hlines, nil_append, mem_take_touchAll]
      exact exists_filter_split (by simp)

/-! ### One set of two lines -/

def tiny : Config := ⟨2, 2, fun lineAddr => lineAddr.toNat, rfl⟩

def tinyGet (type : AccessType) (lineAddr : Address) (granted : MESIState) : Op :=
  .access ⟨type, lineAddr, granted, false, false⟩

/-- Line 2 is dirty when line 3 takes its place, since line 1 was accessed after it. -/
def tinyOps : List Op :=
  [tinyGet .GETS 1 E, tinyGet .GETX 2 M, tinyGet .GETX 1 M, tinyGet .PUTX 2 I, tinyGet .GETS 3 S]

theorem tinyOps_run : (run (step tiny) tinyOps start).isSome = true := by decide +kernel

theorem lru_refined_tiny :
    (run (step tiny) tinyOps start).map (fun s => (s.stateOf tiny, s.sent)) =
        (run (LruSets.step tiny) tinyOps LruSets.start).map (fun t => (t.state, t.sent)) ∧
      ∀ t, run (LruSets.step tiny) tinyOps LruSets.start = some t →
        ∀ a, a ∈ t.lines (tiny.set a) ↔ t.state a ≠ I :=
  lru_refined tiny tinyOps (by decide)

theorem lru_stack_distance_tiny :
    ((run (step tiny) tinyOps start).get tinyOps_run).stateOf tiny 1 ≠ I ↔
      ∃ before after, gets tinyOps = before ++ 1 :: after ∧ 1 ∉ after ∧
        (after.filter (tiny.set · = tiny.set 1)).dedup.length < tiny.assoc :=
  lru_stack_distance tiny tinyOps (by decide) (by simp [tinyOps, tinyGet])
    (Option.some_get tinyOps_run).symm 1

end Doppelganger.SetAssoc

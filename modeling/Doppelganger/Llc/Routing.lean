import Doppelganger.Lib.Run
import Doppelganger.Llc.Cache
import Doppelganger.Mesi.Invalidate

/-! Whether the array that a request is routed to is the one that has the line.  `isApprox` is asked
anew for each request, so a change of the regions can route a line away from where it is; and a
lookup that re-maps a tag clears its address.  In runs without either, both arrays and the routing
agree. -/

namespace Doppelganger.Llc

open Function Dpg Approx Lib

variable {cfg : Config} {exact : CacheArray cfg.numLines} {lineBits : Fin 32}

/-- The cache has the line, with the line id `lineId`. -/
def Cache.Holds (s : Cache exact) (lineAddr : Address) (lineId : Nat) : Prop :=
  s.state lineId ≠ .I ∧ s.owner lineId = lineAddr

/-- A lookup in the exact array finds the line. -/
def Cache.InExact (s : Cache exact) (lineAddr : Address) : Prop :=
  (exact.lookup lineAddr s.array).isSome

/-- A lookup in the Doppelganger array finds the line. -/
def Cache.InDpg (s : Cache exact) (lineAddr : Address) : Prop :=
  (findTag cfg lineAddr s.arrayDpg).isSome

/-- The lookup of a request for the line, in the array it is routed to, finds the line id. -/
def Cache.Finds (lineBits : Fin 32) (s : Cache exact) (lineAddr : Address) (lineId : Nat) : Prop :=
  (isApprox lineBits lineAddr s.approxTree = some false ∧
    exact.lookup lineAddr s.array = some lineId) ∨
  (isApprox lineBits lineAddr s.approxTree = some true ∧ ∀ rank map, ∃ arrayDpg,
    lookup cfg rank lineAddr map s.arrayDpg = some (some lineId, arrayDpg))

/-- When the lookup is in the Doppelganger array, it does not find the line on a data line with
another map. -/
def SameMap (lineBits : Fin 32) (lineAddr : Address) (map : Int32) (s : Cache exact) : Prop :=
  isApprox lineBits lineAddr s.approxTree = some true → ∀ t d,
    findTag cfg lineAddr s.arrayDpg = some t → s.arrayDpg.dataId t = some d →
    s.arrayDpg.mapValue d = map

/-- A child writes back, and the parent invalidates, only a line that the cache holds, in a state
that allows it; no lookup re-maps a tag; and a registration or deregistration returns, with a tree
that answers for every line, and as before for the lines in the arrays. -/
def Settled (lineBits : Fin 32) : Op exact → Cache exact → Prop
  | .access req, s =>
    (req.type = .PUTS ∨ req.type = .PUTX → ∃ lineId, s.Holds req.lineAddr lineId ∧
      (req.type = .PUTX → s.state lineId = .M ∨ s.state lineId = .E)) ∧
    SameMap lineBits req.lineAddr req.map s
  | .invalidate type lineAddr map _, s =>
    (∃ lineId, s.Holds lineAddr lineId ∧ Mesi.accepts type (s.state lineId) = true) ∧
    SameMap lineBits lineAddr map s
  | .region op, s => ∃ t, regionCall lineBits op s.approxTree = some t ∧ ∀ a, ∃ answer,
      isApprox lineBits a t = some answer ∧
      (s.InExact a ∨ s.InDpg a → isApprox lineBits a s.approxTree = some answer)

/-- The routing agrees with what is in the arrays, and a line that the cache holds is found with its
line id. -/
structure Inv (lineBits : Fin 32) (s : Cache exact) : Prop where
  wf : Wf cfg s.arrayDpg
  sent : s.arrayDpg.evictions = []
  answers : ∀ a, ∃ answer, isApprox lineBits a s.approxTree = some answer
  exact_routed : ∀ a, s.InExact a → isApprox lineBits a s.approxTree = some false
  dpg_routed : ∀ a, s.InDpg a → isApprox lineBits a s.approxTree = some true
  exact_held : ∀ id, id < cfg.numLines → s.state id ≠ .I →
    exact.lookup (s.owner id) s.array = some id
  dpg_held : ∀ t, s.state (t + cfg.numLines) ≠ .I →
    findTag cfg (s.owner (t + cfg.numLines)) s.arrayDpg = some t

section

variable {s s' : Cache exact} {a : Address} {id t : Nat} {req : Request exact}

/-- A held line is where its requests go. -/
theorem Inv.held (h : Inv lineBits s) (hheld : s.Holds a id) :
    (id < cfg.numLines ∧ isApprox lineBits a s.approxTree = some false ∧
      exact.lookup a s.array = some id) ∨
    ∃ t, id = t + cfg.numLines ∧ isApprox lineBits a s.approxTree = some true ∧
      findTag cfg a s.arrayDpg = some t := by
  obtain ⟨hstate, rfl⟩ := hheld
  by_cases hid : id < cfg.numLines
  · have hl := h.exact_held id hid hstate
    exact .inl ⟨hid, h.exact_routed _ (by rw [Cache.InExact, hl]; rfl), hl⟩
  · obtain ⟨t, rfl⟩ : ∃ t, id = t + cfg.numLines := ⟨id - cfg.numLines, by omega⟩
    have hf := h.dpg_held t hstate
    exact .inr ⟨t, rfl, h.dpg_routed _ (by rw [Cache.InDpg, hf]; rfl), hf⟩

theorem Inv.finds (h : Inv lineBits s) (hheld : s.Holds a id) : s.Finds lineBits a id := by
  rcases h.held hheld with ⟨-, happrox, hl⟩ | ⟨t, rfl, happrox, hf⟩
  · exact .inl ⟨happrox, hl⟩
  · exact .inr ⟨happrox, lookup_again h.wf hf⟩

/-- No line is in both arrays. -/
theorem Inv.apart (h : Inv lineBits s) (a : Address) : ¬(s.InExact a ∧ s.InDpg a) := by
  rintro ⟨he, hd⟩
  have := (h.exact_routed a he).symm.trans (h.dpg_routed a hd)
  simp at this

theorem start_inv (lineBits : Fin 32) (exact : CacheArray cfg.numLines) :
    Inv lineBits (start exact) := by
  have hfalse : ∀ a, isApprox lineBits a (start exact).approxTree = some false := fun a => rfl
  refine ⟨init_wf cfg, rfl, fun a => ⟨_, hfalse a⟩, fun a _ => hfalse a, fun a ha => ?_,
    fun id _ hid => absurd rfl hid, fun t ht => absurd rfl ht⟩
  obtain ⟨t, ht⟩ := Option.isSome_iff_exists.mp ha
  obtain ⟨-, -, d, hd⟩ := findTag_some ht
  simp [start, init] at hd

/-! ### The controller -/

/-- The requests that the controller asserts about find the states that they need. -/
theorem bccProcessAccess_valid {type : AccessType} {st : MESIState} (flags : Mesi.Flags)
    (hputs : type = .PUTS → st ≠ .I) (hputx : type = .PUTX → st = .M ∨ st = .E) :
    ∃ st', bccProcessAccess type flags st = some st' := by
  cases type with
  | PUTS => cases st <;> first | exact absurd rfl (hputs rfl) | exact ⟨_, rfl⟩
  | PUTX => rcases hputx rfl with rfl | rfl <;> exact ⟨_, rfl⟩
  | GETS =>
    obtain ⟨noExcl, keepExcl⟩ := flags
    cases st <;> cases noExcl <;> exact ⟨_, rfl⟩
  | GETX => cases st <;> exact ⟨_, rfl⟩

/-- The line id that the arrays have for a line goes to it. -/
theorem processAccess_inv (h : Inv lineBits s)
    (hid : (id < cfg.numLines ∧ exact.lookup req.lineAddr s.array = some id) ∨
      ∃ t, id = t + cfg.numLines ∧ findTag cfg req.lineAddr s.arrayDpg = some t)
    (hputs : req.type = .PUTS → s.state id ≠ .I)
    (hputx : req.type = .PUTX → s.state id = .M ∨ s.state id = .E) :
    ∃ s', processAccess req id s = some s' ∧ Inv lineBits s' := by
  have hvalid : ¬((req.type = .PUTS ∨ req.type = .PUTX) ∧ s.state id = .I) := by
    rintro ⟨hp | hp, hI⟩
    · exact hputs hp hI
    · simpa [hI] using hputx hp
  obtain ⟨st, hst⟩ := bccProcessAccess_valid req.flags hputs hputx
  rw [processAccess, if_neg hvalid, hst]
  refine ⟨_, rfl, ?_⟩
  refine ⟨h.wf, h.sent, h.answers, h.exact_routed, h.dpg_routed, fun i hi hstate => ?_,
    fun t hstate => ?_⟩
  · by_cases hii : i = id
    · subst hii
      rcases hid with ⟨-, hl⟩ | ⟨t, rfl, -⟩
      · simpa using hl
      · omega
    · simp only [update_of_ne hii] at hstate ⊢
      exact h.exact_held i hi hstate
  · by_cases hii : t + cfg.numLines = id
    · rcases hid with ⟨hlt, -⟩ | ⟨u, hu, hf⟩
      · omega
      · obtain rfl : t = u := by omega
        subst hii
        simpa using hf
    · simp only [update_of_ne hii] at hstate ⊢
      exact h.dpg_held t hstate

/-- The controller drops the evicted lines, and the log is empty again. -/
theorem sendEvictions_eq (s : Cache exact) :
    (sendEvictions s).array = s.array ∧ (sendEvictions s).owner = s.owner ∧
      (sendEvictions s).approxTree = s.approxTree ∧
      (sendEvictions s).arrayDpg = { s.arrayDpg with evictions := [] } ∧
      ∀ id, (sendEvictions s).state id =
        if id ∈ s.arrayDpg.evictions.map Eviction.lineId then .I else s.state id := by
  have hfold : ∀ (l : List Eviction) (s : Cache exact),
      (l.foldl (fun s e => processEviction e.lineId s) s).array = s.array ∧
      (l.foldl (fun s e => processEviction e.lineId s) s).owner = s.owner ∧
      (l.foldl (fun s e => processEviction e.lineId s) s).approxTree = s.approxTree ∧
      (l.foldl (fun s e => processEviction e.lineId s) s).arrayDpg = s.arrayDpg ∧
      ∀ id, (l.foldl (fun s e => processEviction e.lineId s) s).state id =
        if id ∈ l.map Eviction.lineId then .I else s.state id := by
    intro l
    induction l with
    | nil => simp
    | cons e l ih =>
      intro s
      obtain ⟨h1, h2, h3, h4, h5⟩ := ih (processEviction e.lineId s)
      refine ⟨h1, h2, h3, h4, fun id => ?_⟩
      rw [List.foldl_cons, h5]
      by_cases hl : id ∈ l.map Eviction.lineId
      · simp [hl]
      · by_cases he : id = e.lineId <;> simp [hl, he, processEviction]
  exact hfold s.arrayDpg.evictions _

theorem sendEvictions_sent (h : s.arrayDpg.evictions = []) : sendEvictions s = s := by
  rw [sendEvictions, h, List.foldl_nil, ← h]

/-! ### Insertions -/

/-- A line that is routed to the exact array is inserted there. -/
theorem insertExact_inv (h : Inv lineBits s) (rank : exact.Rank)
    (happrox : isApprox lineBits a s.approxTree = some false)
    (hmiss : exact.lookup a s.array = none) :
    let c := exact.preinsert rank a s.array
    Inv lineBits { processEviction c.1.1 s with array := exact.postinsert a c.1.1 c.2 } := by
  intro c
  have hlt : c.1.1 < cfg.numLines := exact.candidate_lt rank a s.array
  refine ⟨h.wf, h.sent, h.answers, fun b hb => ?_, h.dpg_routed, fun id hid hstate => ?_,
    fun t hstate => ?_⟩
  · by_cases hab : b = a
    · exact hab ▸ happrox
    · exact h.exact_routed b (exact.stored rank hab hb)
  · have hne : id ≠ c.1.1 := by
      rintro rfl
      simp [processEviction] at hstate
    simp only [processEviction, update_of_ne hne] at hstate ⊢
    exact exact.kept rank hmiss (h.exact_held id hid hstate) hne
  · have hne : t + cfg.numLines ≠ c.1.1 := by omega
    simp only [processEviction, update_of_ne hne] at hstate ⊢
    exact h.dpg_held t hstate

/-- A line that is routed to the Doppelganger array is inserted there. -/
theorem insertDpg_inv (h : Inv lineBits s) (rank : RankCands cfg.assoc) (map : Int32)
    (happrox : isApprox lineBits a s.approxTree = some true)
    (hmiss : findTag cfg a s.arrayDpg = none) : ∃ t arrayDpg,
    insert cfg rank a map s.arrayDpg = some (t + cfg.numLines, arrayDpg) ∧
      findTag cfg a arrayDpg = some t ∧
      Inv lineBits (sendEvictions { s with arrayDpg := arrayDpg }) := by
  obtain ⟨t, d, arrayDpg, E, hins, hmem, hp, hw, hfreed⟩ := insert_eq rank a map h.wf
  refine ⟨t, arrayDpg, hins, findTag_inserted hp hmem hmiss, ?_⟩
  obtain ⟨h1, h2, h3, h4, h5⟩ := sendEvictions_eq { s with arrayDpg := arrayDpg }
  have hlog : ∀ id, id ∈ arrayDpg.evictions.map Eviction.lineId ↔
      ∃ u ∈ E, u + cfg.numLines = id := by
    intro id
    rw [hp.evictions, h.sent]
    simp [evictionOf]
  have hkeep : ∀ id, (sendEvictions { s with arrayDpg := arrayDpg }).state id ≠ .I →
      (∀ u ∈ E, u + cfg.numLines ≠ id) ∧ s.state id ≠ .I := by
    intro id hid
    rw [h5] at hid
    by_cases hE : ∃ u ∈ E, u + cfg.numLines = id
    · simp [(hlog id).mpr hE] at hid
    · rw [if_neg fun hm => hE ((hlog id).mp hm)] at hid
      exact ⟨fun u hu hid => hE ⟨u, hu, hid⟩, hid⟩
  constructor
  · obtain ⟨L, hL⟩ := hw.lists
    rw [h4]
    exact ⟨⟨L, hL.linked, hL.head, hL.nodup, hL.mem, hL.free⟩, hw.inRange, hw.keyed.key,
      hw.keyed.unique⟩
  · rw [h4]
  · rw [h3]
    exact h.answers
  · rw [h3]
    intro b hb
    rw [Cache.InExact, h1] at hb
    exact h.exact_routed b hb
  · rw [h3]
    intro b hb
    rw [Cache.InDpg, h4] at hb
    by_cases hab : b = a
    · exact hab ▸ happrox
    · exact h.dpg_routed b (findTag_stored hp hab hb)
  · intro id hid hstate
    rw [h1, h2]
    exact h.exact_held id hid (hkeep id hstate).2
  · intro u hstate
    obtain ⟨hE, hstate⟩ := hkeep _ hstate
    have hf := h.dpg_held u hstate
    have huE : u ∉ E := fun hu => hE u hu rfl
    have hut : u ≠ t := by
      -- A tag that was occupied is evicted before the line is put in it.
      rintro rfl
      obtain ⟨-, -, e, he⟩ := findTag_some hf
      exact huE (hfreed e he)
    have hkept := findTag_kept hp hmiss hf hut huE
    rw [h2, h4]
    exact hkept

end

end Doppelganger.Llc

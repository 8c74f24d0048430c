import Doppelganger.Mesi.Requests

/-! Races of requests with invalidations.  A child gives up its lock before it climbs to its parent,
so that invalidations reach it between its request and `startAccess` of the parent, which takes the
locks and calls `CheckForMESIRace`. -/

namespace Doppelganger.Mesi

open MESIState List

/-- `CheckForMESIRace`: the type of the request after it, and `skipAccess`. -/
def checkForMESIRace (type : AccessType) (state initialState : MESIState) :
    Option (AccessType × Bool) :=
  if state ≠ initialState then
    match type with
    | .PUTS | .PUTX =>
      if state = I then some (type, true)
      else if state = S then some (if type = .PUTX then .PUTS else type, false)
      else none
    | .GETX => if initialState = S ∧ state = I then some (type, false) else none
    | .GETS => none
  else some (type, false)

/-- A cache sends a request of this type in this state. -/
def issues : AccessType → MESIState → Bool
  | .GETS, s => s == I
  | .GETX, s => s == I || s == S
  | .PUTS, s => s == S || s == E
  | .PUTX, s => s == M

/-- What becomes of a child and of the caches above it while its request waits for the locks: the
parent sends it the messages `msgs`, and the other caches do what keeps the hierarchy coherent. -/
inductive InFlight : List InvType → List Frame → Node → List Frame → Node → Prop
  | issued {fs : List Frame} {node : Node} : InFlight [] fs node fs node
  | others {msgs : List InvType} {fs fs' gs : List Frame} {node node' : Node} :
      InFlight msgs fs node fs' node' → Above gs node'.state → InFlight msgs fs node gs node'
  | message {msgs : List InvType} {fs fs' gs : List Frame} {f : Frame} {node node' node'' : Node}
      {type : InvType} {wb wb' : Bool} : InFlight msgs fs node (f :: fs') node' →
      type = .INV ∨ type = .INVX ∧ f.entry.isExclusive = true →
      f.entry.sharer f.left.length = true → processInv type node' wb = some (node'', wb') →
      Above gs node''.state → InFlight (msgs ++ [type]) fs node gs node''

/-- What invalidations make of a state. -/
def Lowered (s s' : MESIState) : Prop := s' = s ∨ s' = I ∨ s' = S ∧ (s = M ∨ s = E)

section

variable {type : AccessType} {s s' : MESIState} {fs fs' : List Frame} {f : Frame}
  {node node' child : Node} {flags : Flags} {msgs : List InvType}

/-- The parent has the child as a sharer exactly when the child has the line, and an exclusive entry
exactly when the child may write it. -/
theorem Above.agrees (h : Above (f :: fs) s) :
    Agrees f.state f.entry (f.entry.sharer f.left.length) s := by
  obtain ⟨⟨lb, rb, b, hf⟩, -⟩ := h
  rw [hf.sharer]
  exact hf.hole

/-- A state that may still be written was not lowered before. -/
theorem Lowered.invx (h : Lowered s s') (hx : s' = M ∨ s' = E) : Lowered s S := by
  rcases h with rfl | rfl | ⟨rfl, -⟩
  · exact .inr (.inr ⟨rfl, hx⟩)
  · simp at hx
  · simp at hx

/-- A message that the parent has reason to send passes the assertions of the child. -/
theorem message_accepted {inv : InvType} (h : Above (f :: fs) node.state)
    (htype : inv = .INV ∨ inv = .INVX ∧ f.entry.isExclusive = true)
    (hbit : f.entry.sharer f.left.length = true) : accepts inv node.state = true := by
  have ha := h.agrees
  rw [hbit] at ha
  rcases htype with rfl | ⟨rfl, he⟩
  · have hI : node.state ≠ I := fun hI => Bool.noConfusion (hI ▸ ha).of_invalid
    simpa [accepts] using hI
  · simpa [accepts, or_comm] using (ha.owner he).1

/-- What a waiting request relies on: the hierarchy is still coherent around the child, whose state
has only been lowered. -/
theorem InFlight.lowered (h : InFlight msgs fs node fs' node') (habove : Above fs node.state)
    (hc : Coherent node) :
    Above fs' node'.state ∧ Coherent node' ∧ Lowered node.state node'.state := by
  induction h with
  | issued => exact ⟨habove, hc, .inl rfl⟩
  | others _ ha ih =>
    obtain ⟨-, hc', hl⟩ := ih habove hc
    exact ⟨ha, hc', hl⟩
  | @message msgs fs fs' gs f node node' node'' inv wb wb' _ htype hbit hinv ha ih =>
    obtain ⟨ha', hc', hl⟩ := ih habove hc
    have hacc := message_accepted ha' htype hbit
    obtain ⟨n, wb1, hinv', hcn, hstate, -⟩ := hc'.invalidate hacc wb
    rw [hinv, Option.some.injEq, Prod.mk.injEq] at hinv'
    obtain ⟨rfl, -⟩ := hinv'
    refine ⟨ha, hcn, ?_⟩
    rw [hstate]
    rcases htype with rfl | ⟨rfl, -⟩
    · exact .inr (.inl rfl)
    · exact hl.invx (by simpa [accepts, or_comm] using hacc)

/-- The state of a child once its request is done. -/
def Granted : AccessType → MESIState → Prop
  | .GETS, s => s = S ∨ s = E
  | .GETX, s => s = M
  | .PUTS, s | .PUTX, s => s = I

/-- The request is a PUT of a line that is gone, and is skipped. -/
def Skipped (type : AccessType) (s s' : MESIState) : Prop :=
  checkForMESIRace type s' s = some (type, true) ∧ (type = .PUTS ∨ type = .PUTX) ∧ s' = I

/-- The request goes on, as one that the child may well send in the state that it is in. -/
def Resumed (type : AccessType) (s s' : MESIState) (type' : AccessType) : Prop :=
  checkForMESIRace type s' s = some (type', false) ∧ issues type' s' = true ∧
    (type' = type ∨ type = .PUTX ∧ type' = .PUTS)

/-- The race table: a GETS has no copy to lose, a GETX goes on without the copy that it lost, a PUT
is skipped when the line is gone, and a PUTX becomes a PUTS when the line may not be written any
more. -/
theorem checkForMESIRace_lowered (h : issues type s = true) (hl : Lowered s s') :
    Skipped type s s' ∨ ∃ type', Resumed type s s' type' := by
  rcases hl with rfl | hl
  · exact .inr ⟨type, by simp [checkForMESIRace], h, .inl rfl⟩
  cases type with
  | GETS =>
    obtain rfl : s = I := by simpa [issues] using h
    obtain rfl : s' = I := by simpa using hl
    exact .inr ⟨.GETS, by simp [checkForMESIRace], h, .inl rfl⟩
  | GETX =>
    have hs : s = I ∨ s = S := by simpa [issues] using h
    have hs' : s' = I := by
      refine hl.resolve_right fun ⟨_, hx⟩ => ?_
      rcases hs with rfl | rfl <;> simp at hx
    subst hs'
    refine .inr ⟨.GETX, ?_, rfl, .inl rfl⟩
    rcases hs with rfl | rfl <;> simp [checkForMESIRace]
  | PUTS =>
    have hs : s = S ∨ s = E := by simpa [issues] using h
    rcases hl with rfl | ⟨rfl, hx⟩
    · refine .inl ⟨?_, .inl rfl, rfl⟩
      rcases hs with rfl | rfl <;> simp [checkForMESIRace]
    · refine .inr ⟨.PUTS, ?_, rfl, .inl rfl⟩
      rcases hx with rfl | rfl <;> simp [checkForMESIRace]
  | PUTX =>
    obtain rfl : s = M := by simpa [issues] using h
    rcases hl with rfl | ⟨rfl, -⟩
    · exact .inl ⟨by simp [checkForMESIRace], .inr rfl, rfl⟩
    · exact .inr ⟨.PUTS, by simp [checkForMESIRace], rfl, .inr ⟨rfl, rfl⟩⟩

/-- The parent is still there after an access. -/
theorem access_parent {res : List Frame} {n : Node}
    (h : access type flags (f :: fs) child = some (res, n)) : ∃ g gs, res = g :: gs := by
  simp only [access, Option.bind_eq_some_iff, Option.map_eq_some_iff, Prod.mk.injEq] at h
  obtain ⟨_, -, _, -, rfl, -⟩ := h
  exact ⟨_, _, rfl⟩

/-- A request that the child may send passes every assertion of the caches above it. -/
theorem access_issued (ha : Above (f :: fs) child.state) (h : issues type child.state = true)
    (hflags : type = .PUTS ∨ type = .PUTX → flags = ⟨false, false⟩) :
    ∃ g gs st, access type flags (f :: fs) child = some (g :: gs, child.setState st) ∧
      Granted type st ∧ Above (g :: gs) st := by
  suffices hres : ∃ res st, access type flags (f :: fs) child = some (res, child.setState st) ∧
      Granted type st ∧ Above res st by
    obtain ⟨res, st, hacc, hst, hres⟩ := hres
    obtain ⟨g, gs, rfl⟩ := access_parent hacc
    exact ⟨g, gs, st, hacc, hst, hres⟩
  cases type with
  | GETS =>
    have hI : child.state = I := by simpa [issues] using h
    obtain ⟨res, st, hacc, hst, hres, -⟩ := access_gets flags hI (hI ▸ ha)
    exact ⟨res, st, hacc, hst, hres⟩
  | GETX =>
    obtain ⟨res, hacc, hres, -⟩ := access_getx flags (by simpa [issues] using h) ha
    exact ⟨res, M, hacc, rfl, hres⟩
  | PUTS =>
    obtain ⟨res, hacc, hres, -⟩ := access_puts (by simpa [issues] using h) ha
    exact ⟨res, I, hflags (.inl rfl) ▸ hacc, rfl, hres⟩
  | PUTX =>
    have hM : child.state = M := by simpa [issues] using h
    obtain ⟨res, hacc, hres, -⟩ := access_putx child (hM ▸ ha)
    exact ⟨res, I, hflags (.inr rfl) ▸ hacc, rfl, hres⟩

end

/-- Whatever invalidations overtake a request, the check for races succeeds.  It skips a PUT whose
line is gone, and whose sender is not a sharer any more; any other request passes every assertion of
the parent and of the caches above it, and leaves the child in the state that was asked for, on
which its sharer bit and the entry of the parent agree. -/
theorem race_handled {type : AccessType} {flags : Flags} {msgs : List InvType}
    {fs fs' : List Frame} {f : Frame} {node node' : Node}
    (hissued : issues type node.state = true)
    (hflags : type = .PUTS ∨ type = .PUTX → flags = ⟨false, false⟩)
    (habove : Above fs node.state) (hc : Coherent node)
    (h : InFlight msgs fs node (f :: fs') node') :
    ∃ type' skipAccess, checkForMESIRace type node'.state node.state = some (type', skipAccess) ∧
      (skipAccess = true → (type = .PUTS ∨ type = .PUTX) ∧ node'.state = I ∧
        f.entry.sharer f.left.length = false) ∧
      (skipAccess = false → ∃ g gs st,
        access type' flags (f :: fs') node' = some (g :: gs, node'.setState st) ∧
        Granted type st ∧ Above (g :: gs) st ∧
        Agrees g.state g.entry (g.entry.sharer g.left.length) st) := by
  obtain ⟨ha, -, hl⟩ := h.lowered habove hc
  rcases checkForMESIRace_lowered hissued hl with
    ⟨hcheck, hput, hI⟩ | ⟨type', hcheck, hissues, htype⟩
  · refine ⟨type, true, hcheck, fun _ => ⟨hput, hI, ?_⟩, by simp⟩
    have hagrees := ha.agrees
    rw [hI] at hagrees
    exact hagrees.of_invalid
  · refine ⟨type', false, hcheck, by simp, fun _ => ?_⟩
    have hflags' : type' = .PUTS ∨ type' = .PUTX → flags = ⟨false, false⟩ := by
      intro hput
      rcases htype with rfl | ⟨rfl, -⟩
      · exact hflags hput
      · exact hflags (.inr rfl)
    obtain ⟨g, gs, st, hacc, hst, hres⟩ := access_issued ha hissues hflags'
    refine ⟨g, gs, st, hacc, ?_, hres, hres.agrees⟩
    rcases htype with rfl | ⟨rfl, rfl⟩ <;> exact hst

/-- The parent of an owner of the line and of a cache without it. -/
def ownerFrame : Frame := ⟨M, ⟨1, [true, false], true⟩, [], [.terminal I]⟩

/-- The same frame after a GETS of the other child. -/
def sharedFrame : Frame := ⟨M, ⟨2, [true, true], false⟩, [], [.terminal S]⟩

/-- The owner of a dirty line evicts it while the other child loads it: the INVX turns the PUTX into
a PUTS. -/
theorem race_handled_putx :
    ∃ type' skipAccess, checkForMESIRace .PUTX S M = some (type', skipAccess) ∧
      (skipAccess = true → (AccessType.PUTX = .PUTS ∨ AccessType.PUTX = .PUTX) ∧ S = I ∧
        sharedFrame.entry.sharer 0 = false) ∧
      (skipAccess = false → ∃ g gs st,
        access type' ⟨false, false⟩ [sharedFrame] (.terminal S) = some (g :: gs, .terminal st) ∧
        Granted .PUTX st ∧ Above (g :: gs) st ∧
        Agrees g.state g.entry (g.entry.sharer g.left.length) st) := by
  have howner : Above [ownerFrame] M :=
    ⟨⟨[], [false], true, fits_only (.inl rfl) (.inl rfl) .nil (.cons ⟨rfl, rfl⟩ .nil)
      (by simp [Coherent.terminal])⟩, trivial⟩
  have hM : M ≠ I := by simp
  have hsibling : Agrees M ⟨0, [], false⟩ true (Node.terminal S).state := .sharing hM rfl
  have hshared : Above [sharedFrame] S :=
    ⟨⟨[], [true], true, fits_sharing hM rfl rfl .nil (.cons hsibling .nil)
      (by simp [Coherent.terminal])⟩, trivial⟩
  have hinvx : InFlight [.INVX] [ownerFrame] (.terminal M) [sharedFrame] (.terminal S) :=
    @InFlight.message [] _ [] _ ownerFrame _ _ _ _ false true .issued (.inr ⟨rfl, rfl⟩) rfl rfl
      hshared
  exact @race_handled .PUTX ⟨false, false⟩ _ _ _ _ (.terminal M) _ rfl (fun _ => rfl) howner
    (.terminal M) hinvx

end Doppelganger.Mesi

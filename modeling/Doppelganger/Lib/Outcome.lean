import Mathlib.Data.List.Forall2

/-! Runs that end with a result or an error: what holds of the one and of the other, by one rule
for each way in which runs are put together. -/

namespace Doppelganger.Lib

variable {ε α β : Type} {post mid : α → Prop} {fault : ε → Prop}

/-- The run ends, with a result that meets `post` or with an error that meets `fault`. -/
def Ends (run : ExceptT ε Option α) (post : α → Prop) (fault : ε → Prop) : Prop :=
  match run.run with
  | none => False
  | some (.ok a) => post a
  | some (.error e) => fault e

theorem Ends.pure {a : α} (h : post a) : Ends (Pure.pure a : ExceptT ε Option α) post fault := h

theorem Ends.throw {e : ε} (h : fault e) :
    Ends (MonadExcept.throw e : ExceptT ε Option α) post fault := h

theorem Ends.mono {run : ExceptT ε Option α} {fault' : ε → Prop} (h : Ends run mid fault')
    (hpost : ∀ a, mid a → post a) (hfault : ∀ e, fault' e → fault e) : Ends run post fault := by
  unfold Ends at h ⊢
  split at h
  · exact h
  · exact hpost _ h
  · exact hfault _ h

theorem Ends.result {run : ExceptT ε Option α} (h : Ends run post fault) :
    Ends run (fun a => run = Pure.pure a) fault := by
  obtain _ | _ | a := run
  · exact h
  · exact h
  · exact rfl

theorem Ends.adapt {ε' : Type} {run : ExceptT ε Option α} {f : ε → ε'} {fault : ε' → Prop}
    (h : Ends run post fun e => fault (f e)) : Ends (run.adapt f) post fault := by
  obtain _ | _ | a := run
  · exact h
  · exact h
  · exact h

theorem Ends.bind {run : ExceptT ε Option α} {next : α → ExceptT ε Option β} {post : β → Prop}
    (h : Ends run mid fault) (hnext : ∀ a, mid a → Ends (next a) post fault) :
    Ends (run >>= next) post fault := by
  obtain _ | _ | a := run
  · exact h
  · exact h
  · exact hnext a h

theorem Ends.mapM {next : α → ExceptT ε Option β} (rel : α → β → Prop) {l : List α}
    (h : ∀ a ∈ l, Ends (next a) (rel a) fault) :
    Ends (l.mapM next) (fun l' => List.Forall₂ rel l l') fault := by
  induction l with
  | nil => exact .nil
  | cons a l ih =>
    rw [List.mapM_cons]
    refine (h a List.mem_cons_self).bind fun b hb => ?_
    refine (ih fun x hx => h x (List.mem_cons_of_mem a hx)).bind fun l' hl' => ?_
    exact Ends.pure (.cons hb hl')

theorem Ends.forM {next : α → ExceptT ε Option PUnit} (ok : α → Prop) {l : List α}
    (h : ∀ a ∈ l, Ends (next a) (fun _ => ok a) fault) :
    Ends (l.forM next) (fun _ => ∀ a ∈ l, ok a) fault := by
  induction l with
  | nil => exact fun a ha => absurd ha List.not_mem_nil
  | cons a l ih =>
    refine (h a List.mem_cons_self).bind fun _ ha => ?_
    exact (ih fun x hx => h x (List.mem_cons_of_mem a hx)).mono
      (fun _ hl => List.forall_mem_cons.mpr ⟨ha, hl⟩) fun _ he => he

/-- An invariant of the elements that have been gone through. -/
theorem Ends.foldlM {next : β → α → ExceptT ε Option β} (inv : List α → β → Prop) {l : List α}
    {b : β} (hinit : inv [] b) (h : ∀ past a b, a ∈ l → inv past b →
      Ends (next b a) (inv (past ++ [a])) fault) : Ends (l.foldlM next b) (inv l) fault := by
  suffices hfrom : ∀ past b, inv past b → Ends (l.foldlM next b) (inv (past ++ l)) fault from
    hfrom [] b hinit
  clear hinit b
  induction l with
  | nil => exact fun past b hb => (List.append_nil past).symm ▸ hb
  | cons a l ih =>
    intro past b hb
    rw [List.foldlM_cons]
    refine (h past a b List.mem_cons_self hb).bind fun b' hb' => ?_
    rw [List.append_cons]
    exact ih (fun past x b hx => h past x b (List.mem_cons_of_mem a hx)) _ b' hb'

/-- What a run that has ended came to. -/
theorem Ends.ok {run : ExceptT ε Option α} {a : α} (h : Ends run post fault)
    (hrun : run = Pure.pure a) : post a := by
  subst hrun
  exact h

theorem Ends.error {run : ExceptT ε Option α} {e : ε} (h : Ends run post fault)
    (hrun : run = MonadExcept.throw e) : fault e := by
  subst hrun
  exact h

end Doppelganger.Lib

import Mathlib.Data.Option.Basic

/-! Runs of a machine whose step may fail: `run` applies a list of operations in turn, and
`run_keeps` turns a step lemma into a statement about every run. -/

namespace Doppelganger.Lib

variable {σ ο : Type*}

/-- The state after the operations `ops`, in order, or `none` if one of them fails. -/
def run (step : ο → σ → Option σ) : List ο → σ → Option σ
  | [], s => some s
  | op :: ops, s => (step op s).bind (run step ops)

/-- Each operation of `ops` meets `ok` in the state that it is applied to. -/
def Along (step : ο → σ → Option σ) (ok : ο → σ → Prop) : List ο → σ → Prop
  | [], _ => True
  | op :: ops, s => ok op s ∧ ∀ s', step op s = some s' → Along step ok ops s'

instance decidableAlong {step : ο → σ → Option σ} {ok : ο → σ → Prop}
    [∀ op s, Decidable (ok op s)] : ∀ (ops : List ο) (s : σ), Decidable (Along step ok ops s)
  | [], _ => isTrue trivial
  | op :: ops, s =>
    match hs : step op s with
    | none => decidable_of_iff (ok op s) ⟨fun h => ⟨h, by simp [hs]⟩, And.left⟩
    | some s' =>
      have : Decidable (Along step ok ops s') := decidableAlong ops s'
      decidable_of_iff (ok op s ∧ Along step ok ops s')
        ⟨fun h => ⟨h.1, by simpa [hs] using h.2⟩, fun h => ⟨h.1, h.2 s' hs⟩⟩

theorem along_of_forall {step : ο → σ → Option σ} {ok : ο → σ → Prop} (h : ∀ op s, ok op s) :
    ∀ (ops : List ο) (s : σ), Along step ok ops s
  | [], _ => trivial
  | op :: ops, s => ⟨h op s, fun s' _ => along_of_forall h ops s'⟩

theorem along_of_mem {step : ο → σ → Option σ} {ok : ο → Prop} :
    ∀ {ops : List ο}, (∀ op ∈ ops, ok op) → ∀ s, Along step (fun op _ => ok op) ops s
  | [], _, _ => trivial
  | op :: _, h, _ => ⟨h op (by simp), fun s' _ => along_of_mem (fun o ho => h o (by simp [ho])) s'⟩

theorem along_and {step : ο → σ → Option σ} {ok ok' : ο → σ → Prop} :
    ∀ {ops : List ο} {s : σ}, Along step ok ops s → Along step ok' ops s →
      Along step (fun op s => ok op s ∧ ok' op s) ops s
  | [], _, _, _ => trivial
  | _ :: _, _, ⟨h, hrest⟩, ⟨h', hrest'⟩ =>
    ⟨⟨h, h'⟩, fun s' hs' => along_and (hrest s' hs') (hrest' s' hs')⟩

theorem run_append {step : ο → σ → Option σ} : ∀ (ops ops' : List ο) (s : σ),
    run step (ops ++ ops') s = (run step ops s).bind (run step ops')
  | [], _, _ => rfl
  | op :: ops, ops', s => by
    rw [List.cons_append, run, run, Option.bind_assoc]
    exact Option.bind_congr fun s' _ => run_append ops ops' s'

theorem along_append {step : ο → σ → Option σ} {ok : ο → σ → Prop} :
    ∀ {ops ops' : List ο} {s : σ}, Along step ok (ops ++ ops') s →
      Along step ok ops s ∧ ∀ s', run step ops s = some s' → Along step ok ops' s'
  | [], _, _, h => ⟨trivial, by rintro s' ⟨⟩; exact h⟩
  | op :: ops, ops', s, ⟨hok, hrest⟩ => by
    refine ⟨⟨hok, fun s1 h1 => (along_append (hrest s1 h1)).1⟩, fun s' hs' => ?_⟩
    obtain ⟨s1, h1, h2⟩ := Option.bind_eq_some_iff.mp hs'
    exact (along_append (hrest s1 h1)).2 s' h2

theorem Along.append {step : ο → σ → Option σ} {ok : ο → σ → Prop} :
    ∀ {ops ops' : List ο} {s : σ}, Along step ok ops s →
      (∀ s', run step ops s = some s' → Along step ok ops' s') → Along step ok (ops ++ ops') s
  | [], _, s, _, h' => h' s rfl
  | op :: ops, _, s, ⟨hok, hrest⟩, h' => by
    refine ⟨hok, fun s1 h1 => (hrest s1 h1).append fun s' hs' => h' s' ?_⟩
    rw [run, h1]
    exact hs'

/-- When operations that meet `ok` keep `Inv` and meet `ok'` where it holds, a run that meets `ok`
from there meets `ok'`. -/
theorem Along.of_keeps {step : ο → σ → Option σ} {ok ok' : ο → σ → Prop} {Inv : σ → Prop}
    (hStep : ∀ op s, Inv s → ok op s → ok' op s ∧ ∀ s', step op s = some s' → Inv s')
    {ops : List ο} {s : σ} (hs : Inv s) (h : Along step ok ops s) : Along step ok' ops s := by
  induction ops generalizing s with
  | nil => trivial
  | cons op ops ih =>
    obtain ⟨hok, hkeeps⟩ := hStep op s hs h.1
    exact ⟨hok, fun s' hs' => ih (hkeeps s' hs') (h.2 s' hs')⟩

/-- `P` holds in `s`, and in every state that the operations `ops`, in order, reach from it. -/
def Always (step : ο → σ → Option σ) (P : σ → Prop) : List ο → σ → Prop
  | [], s => P s
  | op :: ops, s => P s ∧ ∀ s', step op s = some s' → Always step P ops s'

theorem Always.head {step : ο → σ → Option σ} {P : σ → Prop} {ops : List ο} {s : σ}
    (h : Always step P ops s) : P s := by
  cases ops with
  | nil => exact h
  | cons op ops => exact h.1

theorem Always.last {step : ο → σ → Option σ} {P : σ → Prop} {ops : List ο} {s s' : σ}
    (h : Always step P ops s) (hrun : run step ops s = some s') : P s' := by
  induction ops generalizing s with
  | nil =>
    cases hrun
    exact h
  | cons op ops ih =>
    obtain ⟨s1, h1, hrest⟩ := Option.bind_eq_some_iff.mp hrun
    exact ih (h.2 s1 h1) hrest

/-- Where each allowed operation that succeeds keeps `P` exactly when it meets `ok`, and one that
fails meets `ok`, `P` holds all along a run if and only if all of its operations meet `ok`. -/
theorem always_iff_along {step : ο → σ → Option σ} {allowed ok : ο → σ → Prop} {Inv P : σ → Prop}
    (hStep : ∀ op s, Inv s → P s → allowed op s → step op s = none ∧ ok op s ∨
      ∃ s', step op s = some s' ∧ Inv s' ∧ (P s' ↔ ok op s)) (ops : List ο) {s : σ} (hInv : Inv s)
    (hP : P s) (hAllowed : Along step allowed ops s) :
    Always step P ops s ↔ Along step ok ops s := by
  induction ops generalizing s with
  | nil => exact iff_of_true hP trivial
  | cons op ops ih =>
    obtain ⟨hnone, hok⟩ | ⟨s', hs', hInv', hP'⟩ := hStep op s hInv hP hAllowed.1
    · exact iff_of_true ⟨hP, fun s1 h1 => nomatch hnone.symm.trans h1⟩
        ⟨hok, fun s1 h1 => nomatch hnone.symm.trans h1⟩
    have hrest := hAllowed.2 s' hs'
    constructor
    case mp =>
      rintro ⟨-, hall⟩
      have hnext := (hall s' hs').head
      refine ⟨hP'.mp hnext, fun s1 h1 => ?_⟩
      obtain rfl := Option.some.inj (hs'.symm.trans h1)
      exact (ih hInv' hnext hrest).mp (hall _ hs')
    case mpr =>
      rintro ⟨hok, hall⟩
      refine ⟨hP, fun s1 h1 => ?_⟩
      obtain rfl := Option.some.inj (hs'.symm.trans h1)
      exact (ih hInv' (hP'.mpr hok) hrest).mpr (hall _ hs')

/-- A run succeeds if and only if each of its operations meets what makes it succeed. -/
theorem run_isSome_iff {step : ο → σ → Option σ} {ok : ο → σ → Prop}
    (hStep : ∀ op s, (step op s).isSome = true ↔ ok op s) :
    ∀ (ops : List ο) (s : σ), (run step ops s).isSome = true ↔ Along step ok ops s
  | [], _ => iff_of_true rfl trivial
  | op :: ops, s => by
    rw [run, Along, ← hStep]
    cases step op s with
    | none => simp
    | some s' => simp [run_isSome_iff hStep ops s']

/-- When each operation that meets `ok` succeeds and keeps `Inv`, so does a run of such
operations. -/
theorem run_keeps {step : ο → σ → Option σ} {ok : ο → σ → Prop} {Inv : σ → Prop}
    (hStep : ∀ op s, Inv s → ok op s → ∃ s', step op s = some s' ∧ Inv s') :
    ∀ (ops : List ο) {s : σ}, Inv s → Along step ok ops s →
      ∃ s', run step ops s = some s' ∧ Inv s'
  | [], s, hs, _ => ⟨s, rfl, hs⟩
  | op :: ops, s, hs, ⟨hok, hrest⟩ => by
    obtain ⟨s1, h1, hs1⟩ := hStep op s hs hok
    obtain ⟨s2, h2, hs2⟩ := run_keeps hStep ops hs1 (hrest s1 h1)
    exact ⟨s2, by rw [run, h1]; exact h2, hs2⟩

/-- `run_keeps` for operations that succeed from every state that meets `Inv`. -/
theorem run_always {step : ο → σ → Option σ} {Inv : σ → Prop}
    (hStep : ∀ op s, Inv s → ∃ s', step op s = some s' ∧ Inv s') (ops : List ο) {s : σ}
    (hs : Inv s) : ∃ s', run step ops s = some s' ∧ Inv s' :=
  have all : Along step (fun _ _ => True) ops s := along_of_forall (fun _ _ => trivial) ops s
  run_keeps (fun op s h _ => hStep op s h) ops hs all

/-- A property that operations which meet `ok` keep when they succeed holds in the last state of a
run of them. -/
theorem run_preserves {step : ο → σ → Option σ} {ok : ο → σ → Prop} {Inv : σ → Prop}
    {ops : List ο} {s s' : σ}
    (hStep : ∀ op s s', Inv s → ok op s → step op s = some s' → Inv s') (hs : Inv s)
    (hok : Along step ok ops s) (hrun : run step ops s = some s') : Inv s' := by
  induction ops generalizing s with
  | nil =>
    cases hrun
    exact hs
  | cons op ops ih =>
    obtain ⟨s1, h1, hrest⟩ := Option.bind_eq_some_iff.mp hrun
    exact ih (hStep op s s1 hs hok.1 h1) (hok.2 s1 h1) hrest

/-! ### What a run emits -/

variable {ω : Type*}

/-- What the operations `ops` emit, in order, up to the first one that fails. -/
def emitted (step : ο → σ → Option σ) (out : ο → σ → List ω) : List ο → σ → List ω
  | [], _ => []
  | op :: ops, s => out op s ++ (step op s).elim [] (emitted step out ops)

/-- When each operation keeps a relation between all that was emitted and the state, so does a
run. -/
theorem run_emits {step : ο → σ → Option σ} {out : ο → σ → List ω} {Inv : List ω → σ → Prop}
    (hStep : ∀ log op s s', Inv log s → step op s = some s' → Inv (log ++ out op s) s')
    {ops : List ο} {log : List ω} {s s' : σ} (hs : Inv log s) (hrun : run step ops s = some s') :
    Inv (log ++ emitted step out ops s) s' := by
  induction ops generalizing log s with
  | nil =>
    cases hrun
    rw [emitted, List.append_nil]
    exact hs
  | cons op ops ih =>
    obtain ⟨s1, h1, hrest⟩ := Option.bind_eq_some_iff.mp hrun
    rw [emitted, h1, Option.elim_some, ← List.append_assoc]
    exact ih (hStep log op s s1 hs h1) hrest

/-- The machine whose state keeps what was emitted. -/
def logged (step : ο → σ → Option σ) (out : ο → σ → List ω) (op : ο) (x : List ω × σ) :
    Option (List ω × σ) :=
  (step op x.2).map fun s' => (x.1 ++ out op x.2, s')

theorem along_logged {step : ο → σ → Option σ} {out : ο → σ → List ω} {ok : ο → σ → Prop}
    {ops : List ο} {log : List ω} {s : σ} :
    Along (logged step out) (fun op x => ok op x.2) ops (log, s) ↔ Along step ok ops s := by
  induction ops generalizing log s with
  | nil => exact Iff.rfl
  | cons op ops ih =>
    refine and_congr_right fun _ => ⟨fun h s' hs' => ?_, fun h x hx => ?_⟩
    · exact ih.mp (h (log ++ out op s, s') (by rw [logged, hs', Option.map_some]))
    · obtain ⟨s', hs', rfl⟩ := Option.map_eq_some_iff.mp hx
      exact ih.mpr (h s' hs')

/-- Where each allowed operation keeps `P` of what was emitted exactly when it meets `ok`, of this
and of the state, and `P` is of all the prefixes too, it holds of what a run emits if and only if
all of its operations meet `ok`. -/
theorem emits_iff_logged {step : ο → σ → Option σ} {out : ο → σ → List ω} {allowed : ο → σ → Prop}
    {ok : ο → List ω × σ → Prop} {Inv : List ω → σ → Prop} {P : List ω → Prop}
    (hPrefix : ∀ log more, P (log ++ more) → P log)
    (hStep : ∀ log op s s', Inv log s → allowed op s → step op s = some s' →
      Inv (log ++ out op s) s' ∧ (P log → (P (log ++ out op s) ↔ ok op (log, s))))
    {ops : List ο} {log : List ω} {s s' : σ} (hs : Inv log s) (hP : P log)
    (hAllowed : Along step allowed ops s) (hrun : run step ops s = some s') :
    P (log ++ emitted step out ops s) ↔ Along (logged step out) ok ops (log, s) := by
  induction ops generalizing log s with
  | nil =>
    rw [emitted, List.append_nil]
    exact iff_of_true hP trivial
  | cons op ops ih =>
    obtain ⟨s1, h1, hrest⟩ := Option.bind_eq_some_iff.mp hrun
    obtain ⟨hInv, hiff⟩ := hStep log op s s1 hs hAllowed.1 h1
    rw [emitted, h1, Option.elim_some, ← List.append_assoc]
    have hlogged : logged step out op (log, s) = some (log ++ out op s, s1) := by
      rw [logged, h1, Option.map_some]
    constructor
    case mp =>
      intro hall
      have hnext := hPrefix _ _ hall
      refine ⟨(hiff hP).mp hnext, fun x hx => ?_⟩
      obtain rfl := Option.some.inj (hlogged.symm.trans hx)
      exact (ih hInv hnext (hAllowed.2 _ h1) hrest).mp hall
    case mpr =>
      rintro ⟨hok, hall⟩
      exact (ih hInv ((hiff hP).mpr hok) (hAllowed.2 _ h1) hrest).mpr (hall _ hlogged)

/-- `emits_iff_logged` for operations that meet `ok` whatever was emitted. -/
theorem emits_iff_along {step : ο → σ → Option σ} {out : ο → σ → List ω}
    {allowed ok : ο → σ → Prop} {Inv : List ω → σ → Prop} {P : List ω → Prop}
    (hPrefix : ∀ log more, P (log ++ more) → P log)
    (hStep : ∀ log op s s', Inv log s → allowed op s → step op s = some s' →
      Inv (log ++ out op s) s' ∧ (P log → (P (log ++ out op s) ↔ ok op s)))
    {ops : List ο} {log : List ω} {s s' : σ} (hs : Inv log s) (hP : P log)
    (hAllowed : Along step allowed ops s) (hrun : run step ops s = some s') :
    P (log ++ emitted step out ops s) ↔ Along step ok ops s :=
  (emits_iff_logged hPrefix hStep hs hP hAllowed hrun).trans along_logged

/-- Where each operation succeeds and emits only what is right exactly when it meets `ok`, a run
does if and only if all of its operations meet `ok`. -/
theorem sound_iff_along {step : ο → σ → Option σ} {out : ο → σ → List ω} {ok : ο → σ → Prop}
    {Inv : σ → Prop} {P : ω → Prop}
    (hOk : ∀ op s, Inv s → ok op s →
      ∃ s', step op s = some s' ∧ Inv s' ∧ ∀ x ∈ out op s, P x)
    (hNot : ∀ op s, Inv s → ¬ ok op s → step op s = none ∨ ∃ x ∈ out op s, ¬ P x)
    (ops : List ο) {s : σ} (hs : Inv s) :
    (run step ops s ≠ none ∧ ∀ x ∈ emitted step out ops s, P x) ↔ Along step ok ops s := by
  induction ops generalizing s with
  | nil => exact iff_of_true ⟨nofun, nofun⟩ trivial
  | cons op ops ih =>
    by_cases hop : ok op s
    · obtain ⟨s1, h1, hs1, hout⟩ := hOk op s hs hop
      have hrest := ih hs1
      rw [run, emitted, h1, Option.bind_some, Option.elim_some]
      simp only [List.forall_mem_append, and_iff_right hout, hrest]
      exact ⟨fun h => ⟨hop, fun s2 h2 => Option.some.inj (h1.symm.trans h2) ▸ h⟩,
        fun h => h.2 s1 h1⟩
    · refine iff_of_false ?_ fun h => hop h.1
      rintro ⟨hsome, hall⟩
      obtain hnone | ⟨x, hx, hbad⟩ := hNot op s hs hop
      · rw [run, hnone] at hsome
        exact hsome rfl
      · exact hbad (hall x (List.mem_append_left _ hx))

/-- Two machines whose states stay related, as long as the first meets `ok`, and which emit the same
in related states, run alike. -/
theorem run_simulates {τ : Type*} {step : ο → σ → Option σ} {step' : ο → τ → Option τ}
    {out : ο → σ → List ω} {out' : ο → τ → List ω} {ok : ο → σ → Prop} {R : σ → τ → Prop}
    (hStep : ∀ op s t, R s t → ok op s → ∃ s' t', step op s = some s' ∧ step' op t = some t' ∧
      R s' t' ∧ out op s = out' op t)
    {ops : List ο} {s : σ} {t : τ} (h : R s t) (hok : Along step ok ops s) :
    ∃ s' t', run step ops s = some s' ∧ run step' ops t = some t' ∧ R s' t' ∧
      emitted step out ops s = emitted step' out' ops t := by
  induction ops generalizing s t with
  | nil => exact ⟨s, t, rfl, rfl, h, rfl⟩
  | cons op ops ih =>
    obtain ⟨s1, t1, hs1, ht1, h1, hout⟩ := hStep op s t h hok.1
    obtain ⟨s2, t2, hs2, ht2, h2, hrest⟩ := ih h1 (hok.2 s1 hs1)
    refine ⟨s2, t2, ?_, ?_, h2, ?_⟩
    · rw [run, hs1]
      exact hs2
    · rw [run, ht1]
      exact ht2
    · rw [emitted, emitted, hs1, ht1, hout, Option.elim_some, Option.elim_some, hrest]

end Doppelganger.Lib

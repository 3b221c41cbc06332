/-! # How a run ends

A run that may fail leaves a state behind in either case. What holds of its outcome and of that state is found
step by step.
-/
namespace Florin

variable {ε σ α β : Type} {m : ExceptT ε (StateM σ) α} {s : σ}

/-- The run from a state ends with an outcome and a state as described. -/
def Ends (m : ExceptT ε (StateM σ) α) (s : σ) (Q : Except ε α → σ → Prop) : Prop :=
  Q (m.run.run s).1 (m.run.run s).2

namespace Ends

variable {Q R : Except ε α → σ → Prop}

theorem mono (h : Ends m s Q) (hQR : ∀ r s', Q r s' → R r s') : Ends m s R := hQR _ _ h

theorem and (hQ : Ends m s Q) (hR : Ends m s R) : Ends m s fun r s' => Q r s' ∧ R r s' := ⟨hQ, hR⟩

end Ends

@[simp] theorem ends_pure {a : α} {Q : Except ε α → σ → Prop} : Ends (pure a) s Q ↔ Q (.ok a) s := Iff.rfl

@[simp] theorem ends_throw {e : ε} {Q : Except ε α → σ → Prop} : Ends (throw e) s Q ↔ Q (.error e) s := Iff.rfl

@[simp] theorem ends_get {Q : Except ε σ → σ → Prop} : Ends get s Q ↔ Q (.ok s) s := Iff.rfl

@[simp] theorem ends_set {s' : σ} {Q : Except ε PUnit → σ → Prop} : Ends (set s') s Q ↔ Q (.ok ()) s' := Iff.rfl

@[simp] theorem ends_modify {f : σ → σ} {Q : Except ε PUnit → σ → Prop} :
    Ends (modify f) s Q ↔ Q (.ok ()) (f s) := Iff.rfl

/-- The rest of a run starts in the state that the first part leaves, if that gives something. -/
@[simp] theorem ends_bind {f : α → ExceptT ε (StateM σ) β} {Q : Except ε β → σ → Prop} :
    Ends (m >>= f) s Q ↔ Ends m s fun r s' =>
      match r with
      | .ok a => Ends (f a) s' Q
      | .error e => Q (.error e) s' := by
  unfold Ends
  rw [ExceptT.run_bind, StateT.run_bind]
  cases h : (m.run.run s).1 with
  | ok a => simp [bind, h]
  | error e =>
    simp only [bind, h]
    exact Iff.rfl

theorem Ends.bind_keeps {f : α → ExceptT ε (StateM σ) β} {I : σ → Prop} (hm : Ends m s fun _ s' => I s')
    (hf : ∀ a s', I s' → Ends (f a) s' fun _ s'' => I s'') : Ends (m >>= f) s fun _ s' => I s' := by
  rw [ends_bind]
  refine hm.mono fun r s' hs' => ?_
  cases r with
  | ok a => exact hf a s' hs'
  | error e => exact hs'

/-- What each part of a run keeps, also one that fails, the whole run keeps. -/
theorem ends_forM {xs : List α} {f : α → ExceptT ε (StateM σ) PUnit} (I : σ → Prop)
    (hstep : ∀ x ∈ xs, ∀ s, I s → Ends (f x) s fun _ s' => I s') (h : I s) :
    Ends (xs.forM f) s fun _ s' => I s' := by
  induction xs generalizing s with
  | nil => exact h
  | cons x xs ih =>
    rw [List.forM, ends_bind]
    refine (hstep x List.mem_cons_self s h).mono fun r s' hs' => ?_
    cases r with
    | ok => exact ih (fun y hy => hstep y (List.mem_cons_of_mem x hy)) hs'
    | error => exact hs'

/-- The run, if it succeeds, gives a result and leaves a state as described. -/
def Yields (m : ExceptT ε (StateM σ) α) (s : σ) (P : α → σ → Prop) : Prop :=
  Ends m s fun r s' => ∀ a, r = .ok a → P a s'

namespace Yields

variable {P : α → σ → Prop} {f : α → ExceptT ε (StateM σ) β} {Q : β → σ → Prop}

theorem of_pure {a : α} (h : P a s) : Yields (pure a : ExceptT ε (StateM σ) α) s P := by
  rintro _ ⟨⟩
  exact h

theorem of_throw {e : ε} : Yields (throw e : ExceptT ε (StateM σ) α) s P := by
  rintro _ ⟨⟩

theorem mono {R : α → σ → Prop} (h : Yields m s P) (hPR : ∀ a s', P a s' → R a s') : Yields m s R :=
  Ends.mono h fun _ _ hr a ha => hPR a _ (hr a ha)

theorem of_ends {a : α} {s' : σ} (h : Ends m s fun r t => r = .ok a ∧ t = s') : Yields m s fun _ t => t = s' :=
  Ends.mono h fun _ _ hr _ _ => hr.2

theorem bind (hm : Yields m s P) (hf : ∀ a s', P a s' → Yields (f a) s' Q) : Yields (m >>= f) s Q := by
  rw [Yields, ends_bind]
  refine Ends.mono hm fun r s' hr => ?_
  cases r with
  | ok a => exact hf a s' (hr a rfl)
  | error e =>
    rintro _ ⟨⟩

end Yields

/-- What holds of the members that a run is through with is carried on by the next one, if it succeeds. -/
theorem yields_forM {xs : List α} {f : α → ExceptT ε (StateM σ) PUnit} (I : List α → σ → Prop)
    (hstep : ∀ front x rest, xs = front ++ x :: rest → ∀ s, I front s →
      Yields (f x) s fun _ s' => I (front ++ [x]) s') (h : I [] s) :
    Yields (xs.forM f) s fun _ s' => I xs s' := by
  suffices hrest : ∀ rest front, xs = front ++ rest → ∀ s, I front s →
      Yields (rest.forM f) s fun _ s' => I xs s' from hrest xs [] rfl s h
  intro rest
  induction rest with
  | nil =>
    intro front hxs s hs
    refine Yields.of_pure ?_
    rw [hxs, List.append_nil]
    exact hs
  | cons x rest ih =>
    intro front hxs s hs
    rw [List.forM]
    exact (hstep front x rest hxs s hs).bind fun _ s' hs' => ih (front ++ [x]) (by simp [hxs]) s' hs'

/-- Whatever state a run starts from, if it fails it does so as described. -/
def Fails (m : ExceptT ε (StateM σ) α) (P : ε → Prop) : Prop :=
  ∀ s, Ends m s fun r _ => ∀ e, r = .error e → P e

namespace Fails

variable {P : ε → Prop}

theorem of_pure (a : α) : Fails (pure a : ExceptT ε (StateM σ) α) P := by
  rintro s e ⟨⟩

theorem of_get : Fails (get : ExceptT ε (StateM σ) σ) P := by
  rintro s e ⟨⟩

theorem of_modify (f : σ → σ) : Fails (modify f : ExceptT ε (StateM σ) PUnit) P := by
  rintro s e ⟨⟩

theorem of_throw {e : ε} (h : P e) : Fails (throw e : ExceptT ε (StateM σ) α) P := by
  rintro s _ ⟨⟩
  exact h

theorem bind {f : α → ExceptT ε (StateM σ) β} (hm : Fails m P) (hf : ∀ a, Fails (f a) P) : Fails (m >>= f) P := by
  intro s
  rw [ends_bind]
  refine (hm s).mono fun r s' hr => ?_
  cases r with
  | ok a => exact hf a s'
  | error e => exact fun e' he' => hr e' (by rw [Except.error.inj he'])

theorem forM {xs : List α} {f : α → ExceptT ε (StateM σ) PUnit} (h : ∀ x, Fails (f x) P) : Fails (xs.forM f) P := by
  induction xs with
  | nil => exact of_pure _
  | cons x xs ih => exact (h x).bind fun _ => ih

end Fails

end Florin

import Mathlib.Tactic.Common

/-!
# Programs that change a state and may fail

A program `x : EStateM ε σ α` runs from a state to a value or to an error, and
keeps the state it reached either way. `wp x Q E s` says that from `s` it ends
with a value and a state of `Q`, or with an error and a state of `E`: its
weakest precondition, computed along the program by the rules below.

## Main definitions

- `wp`: the weakest precondition
- `Keeps`: a property of the state that a program keeps, however it ends
- `Fails`: the errors a program may fail with
- `Stays`: a property of the state kept, and the errors it may fail with
-/

namespace Koh

variable {ε σ α β : Type}

/-- From `s`, `x` ends with a value and a state of `Q`, or fails with an error
and a state of `E`. -/
def wp (x : EStateM ε σ α) (Q : α → σ → Prop) (E : ε → σ → Prop) (s : σ) : Prop :=
  match x s with
  | .ok a s' => Q a s'
  | .error e s' => E e s'

-- ════════════════════════════════════════════════════════════════════════
-- Rules of the program's own constructs
-- ════════════════════════════════════════════════════════════════════════

theorem get_bind (f : σ → EStateM ε σ α) (s : σ) : (get >>= f) s = f s s := rfl

theorem set_bind (t : σ) (f : PUnit → EStateM ε σ α) (s : σ) : (set t >>= f) s = f ⟨⟩ t := rfl

variable {Q : α → σ → Prop} {E : ε → σ → Prop} {s : σ}

@[simp] theorem wp_pure (a : α) : wp (pure a) Q E s ↔ Q a s := Iff.rfl

@[simp] theorem wp_bind {R : β → σ → Prop} (x : EStateM ε σ α) (f : α → EStateM ε σ β) :
    wp (x >>= f) R E s ↔ wp x (fun a s' => wp (f a) R E s') E s := by
  simp only [wp, bind, EStateM.bind]
  cases x s <;> rfl

@[simp] theorem wp_map {R : β → σ → Prop} (x : EStateM ε σ α) (f : α → β) :
    wp (f <$> x) R E s ↔ wp x (fun a s' => R (f a) s') E s := by
  simp only [wp, Functor.map, EStateM.map]
  cases x s <;> rfl

@[simp] theorem wp_throw (e : ε) : wp (throw e : EStateM ε σ α) Q E s ↔ E e s := Iff.rfl

@[simp] theorem wp_get {Q : σ → σ → Prop} : wp (get : EStateM ε σ σ) Q E s ↔ Q s s := Iff.rfl

@[simp] theorem wp_set {Q : PUnit → σ → Prop} (t : σ) :
    wp (set t : EStateM ε σ PUnit) Q E s ↔ Q ⟨⟩ t := Iff.rfl

@[simp] theorem wp_modify {Q : PUnit → σ → Prop} (f : σ → σ) :
    wp (modify f : EStateM ε σ PUnit) Q E s ↔ Q ⟨⟩ (f s) := Iff.rfl

@[simp] theorem wp_ite (p : Prop) [Decidable p] (x y : EStateM ε σ α) :
    wp (if p then x else y) Q E s ↔ (p → wp x Q E s) ∧ (¬ p → wp y Q E s) := by
  by_cases hp : p <;> simp [hp]

/-- `x`, if `p`. -/
def onlyIf (p : Prop) [Decidable p] (x : EStateM ε σ Unit) : EStateM ε σ Unit :=
  if p then x else pure ()

@[simp] theorem wp_onlyIf {Q : Unit → σ → Prop} (p : Prop) [Decidable p] (x : EStateM ε σ Unit) :
    wp (onlyIf p x) Q E s ↔ (p → wp x Q E s) ∧ (¬ p → Q () s) := by
  rw [onlyIf, wp_ite, wp_pure]

/-- `f` of the value there is, if there is one. -/
def onSome (o : Option α) (f : α → EStateM ε σ Unit) : EStateM ε σ Unit :=
  match o with
  | some a => f a
  | none => pure ()

@[simp] theorem wp_onSome {Q : Unit → σ → Prop} (o : Option α) (f : α → EStateM ε σ Unit) :
    wp (onSome o f) Q E s ↔ (∀ a, o = some a → wp (f a) Q E s) ∧ (o = none → Q () s) := by
  cases o <;> simp [onSome]

-- ════════════════════════════════════════════════════════════════════════
-- Consequence
-- ════════════════════════════════════════════════════════════════════════

/-- The postconditions may be weakened. -/
theorem wp_mono {Q' : α → σ → Prop} {E' : ε → σ → Prop} {x : EStateM ε σ α}
    (h : wp x Q E s) (hQ : ∀ a t, Q a t → Q' a t) (hE : ∀ e t, E e t → E' e t) :
    wp x Q' E' s := by
  simp only [wp] at h ⊢
  cases hx : x s with
  | ok a t =>
    rw [hx] at h
    exact hQ a t h
  | error e t =>
    rw [hx] at h
    exact hE e t h

/-- Two postconditions at once. -/
theorem wp_and {Q' : α → σ → Prop} {E' : ε → σ → Prop} {x : EStateM ε σ α}
    (h : wp x Q E s) (h' : wp x Q' E' s) :
    wp x (fun a t => Q a t ∧ Q' a t) (fun e t => E e t ∧ E' e t) s := by
  simp only [wp] at h h' ⊢
  cases hx : x s with
  | ok a t =>
    rw [hx] at h h'
    exact ⟨h, h'⟩
  | error e t =>
    rw [hx] at h h'
    exact ⟨h, h'⟩

/-- What a run that ended well reached. -/
theorem wp_of_ok {x : EStateM ε σ α} {a : α} {t : σ} (h : wp x Q E s) (hx : x s = .ok a t) :
    Q a t := by
  simpa only [wp, hx] using h

/-- What fails has failed as it should. -/
theorem wp_of_error {x : EStateM ε σ α} {e : ε} {t : σ} (h : wp x Q E s) (hx : x s = .error e t) :
    E e t := by
  simpa only [wp, hx] using h

-- ════════════════════════════════════════════════════════════════════════
-- Properties kept
-- ════════════════════════════════════════════════════════════════════════

/-- `x` keeps `P`, whether it ends well or fails. -/
def Keeps (P : σ → Prop) (x : EStateM ε σ α) : Prop :=
  ∀ s, P s → wp x (fun _ => P) (fun _ => P) s

namespace Keeps

variable {P : σ → Prop}

theorem pure (a : α) : Keeps P (Pure.pure a : EStateM ε σ α) := fun _ hs => hs

theorem throw (e : ε) : Keeps P (MonadExcept.throw e : EStateM ε σ α) := fun _ hs => hs

theorem get : Keeps P (MonadState.get : EStateM ε σ σ) := fun _ hs => hs

theorem modify {f : σ → σ} (hf : ∀ s, P s → P (f s)) :
    Keeps P (modify f : EStateM ε σ PUnit) := fun s hs => hf s hs

/-- One call after another. -/
theorem bind {x : EStateM ε σ α} {f : α → EStateM ε σ β} (hx : Keeps P x)
    (hf : ∀ a, Keeps P (f a)) : Keeps P (x >>= f) := by
  intro s hs
  rw [wp_bind]
  exact wp_mono (hx s hs) (fun a t ht => hf a t ht) (fun _ _ h => h)

/-- What is read of the state has the property. -/
theorem get_bind {f : σ → EStateM ε σ β} (hf : ∀ s, P s → Keeps P (f s)) :
    Keeps P (MonadState.get >>= f) := fun s hs => hf s hs s hs

theorem set {t : σ} (ht : P t) : Keeps P (MonadStateOf.set t : EStateM ε σ PUnit) :=
  fun _ _ => ht

theorem map {x : EStateM ε σ α} (hx : Keeps P x) (f : α → β) : Keeps P (f <$> x) := by
  intro s hs
  rw [wp_map]
  exact hx s hs

theorem ite {p : Prop} [Decidable p] {x y : EStateM ε σ α} (hx : Keeps P x) (hy : Keeps P y) :
    Keeps P (if p then x else y) := by
  by_cases hp : p
  · simpa only [if_pos hp] using hx
  · simpa only [if_neg hp] using hy

theorem onlyIf {p : Prop} [Decidable p] {x : EStateM ε σ Unit} (hx : p → Keeps P x) :
    Keeps P (onlyIf p x) := by
  unfold Koh.onlyIf
  split
  · next hp => exact hx hp
  · exact pure ()

theorem onSome {o : Option α} {f : α → EStateM ε σ Unit} (hf : ∀ a, o = some a → Keeps P (f a)) :
    Keeps P (onSome o f) := by
  cases o with
  | none => exact pure ()
  | some a => exact hf a rfl

/-- A program run for each of a list, one after another. -/
theorem forM {x : β → EStateM ε σ PUnit} (hx : ∀ b, Keeps P (x b)) (l : List β) :
    Keeps P (l.forM x) := by
  induction l with
  | nil => exact pure _
  | cons b l ih => exact bind (hx b) fun _ => ih

/-- Each call of a fold. -/
theorem foldlM {x : β → α → EStateM ε σ β} (hx : ∀ b a, Keeps P (x b a)) (l : List α) (b : β) :
    Keeps P (l.foldlM x b) := by
  induction l generalizing b with
  | nil => exact pure _
  | cons a l ih => exact bind (hx b a) fun c => ih c

end Keeps

-- ════════════════════════════════════════════════════════════════════════
-- Errors
-- ════════════════════════════════════════════════════════════════════════

/-- `x`, from whatever state, fails with errors of `P` alone. -/
def Fails (P : ε → Prop) (x : EStateM ε σ α) : Prop :=
  ∀ s, wp x (fun _ _ => True) (fun e _ => P e) s

namespace Fails

variable {P : ε → Prop}

theorem pure (a : α) : Fails P (Pure.pure a : EStateM ε σ α) := fun _ => trivial

theorem throw {e : ε} (h : P e) : Fails P (MonadExcept.throw e : EStateM ε σ α) := fun _ => h

theorem get : Fails P (MonadState.get : EStateM ε σ σ) := fun _ => trivial

theorem set (t : σ) : Fails P (MonadStateOf.set t : EStateM ε σ PUnit) := fun _ => trivial

theorem modify (f : σ → σ) : Fails P (modify f : EStateM ε σ PUnit) := fun _ => trivial

/-- What is run next may be run from any state. -/
theorem bind_of {x : EStateM ε σ α} {f : α → EStateM ε σ β} {s : σ}
    (hx : wp x (fun _ _ => True) (fun e _ => P e) s) (hf : ∀ a, Fails P (f a)) :
    wp (x >>= f) (fun _ _ => True) (fun e _ => P e) s := by
  rw [wp_bind]
  exact wp_mono hx (fun a t _ => hf a t) (fun _ _ h => h)

theorem bind {x : EStateM ε σ α} {f : α → EStateM ε σ β} (hx : Fails P x)
    (hf : ∀ a, Fails P (f a)) : Fails P (x >>= f) := fun s => bind_of (hx s) hf

theorem map {x : EStateM ε σ α} (hx : Fails P x) (f : α → β) : Fails P (f <$> x) := by
  intro s
  rw [wp_map]
  exact hx s

theorem ite {p : Prop} [Decidable p] {x y : EStateM ε σ α} (hx : Fails P x) (hy : Fails P y) :
    Fails P (if p then x else y) := by
  by_cases hp : p
  · simpa only [if_pos hp] using hx
  · simpa only [if_neg hp] using hy

theorem onlyIf {p : Prop} [Decidable p] {x : EStateM ε σ Unit} (hx : Fails P x) :
    Fails P (onlyIf p x) := ite hx (pure ())

theorem onSome {o : Option α} {f : α → EStateM ε σ Unit} (hf : ∀ a, Fails P (f a)) :
    Fails P (onSome o f) := by
  cases o with
  | none => exact pure ()
  | some a => exact hf a

/-- A program run for each of a list, one after another. -/
theorem forM {x : β → EStateM ε σ PUnit} (hx : ∀ b, Fails P (x b)) (l : List β) :
    Fails P (l.forM x) := by
  induction l with
  | nil => exact pure _
  | cons b l ih => exact bind (hx b) fun _ => ih

end Fails

-- ════════════════════════════════════════════════════════════════════════
-- A property kept, and errors
-- ════════════════════════════════════════════════════════════════════════

/-- From a state of `P`, `x` reaches one of `P`, or fails with an error of `F`. -/
def Stays (P : σ → Prop) (F : ε → Prop) (x : EStateM ε σ α) : Prop :=
  ∀ s, P s → wp x (fun _ => P) (fun e _ => F e) s

namespace Stays

variable {P : σ → Prop} {F : ε → Prop}

theorem pure (a : α) : Stays P F (Pure.pure a : EStateM ε σ α) := fun _ hs => hs

theorem throw {e : ε} (h : F e) : Stays P F (MonadExcept.throw e : EStateM ε σ α) := fun _ _ => h

theorem modify {f : σ → σ} (hf : ∀ s, P s → P (f s)) :
    Stays P F (modify f : EStateM ε σ PUnit) := fun s hs => hf s hs

theorem bind {x : EStateM ε σ α} {f : α → EStateM ε σ β} (hx : Stays P F x)
    (hf : ∀ a, Stays P F (f a)) : Stays P F (x >>= f) := by
  intro s hs
  rw [wp_bind]
  exact wp_mono (hx s hs) (fun a t ht => hf a t ht) (fun _ _ h => h)

/-- What is read of the state has the property. -/
theorem get_bind {f : σ → EStateM ε σ β} (hf : ∀ s, P s → Stays P F (f s)) :
    Stays P F (MonadState.get >>= f) := fun s hs => hf s hs s hs

theorem set {t : σ} (ht : P t) : Stays P F (MonadStateOf.set t : EStateM ε σ PUnit) :=
  fun _ _ => ht

theorem map {x : EStateM ε σ α} (hx : Stays P F x) (f : α → β) : Stays P F (f <$> x) := by
  intro s hs
  rw [wp_map]
  exact hx s hs

theorem ite {p : Prop} [Decidable p] {x y : EStateM ε σ α} (hx : Stays P F x)
    (hy : Stays P F y) : Stays P F (if p then x else y) := by
  by_cases hp : p
  · simpa only [if_pos hp] using hx
  · simpa only [if_neg hp] using hy

theorem onlyIf {p : Prop} [Decidable p] {x : EStateM ε σ Unit} (hx : Stays P F x) :
    Stays P F (onlyIf p x) := ite hx (pure ())

theorem onSome {o : Option α} {f : α → EStateM ε σ Unit} (hf : ∀ a, Stays P F (f a)) :
    Stays P F (onSome o f) := by
  cases o with
  | none => exact pure ()
  | some a => exact hf a

/-- What is kept is kept until a failure. -/
theorem of_keeps {x : EStateM ε σ α} (h : Keeps P x) : Stays P (fun _ => True) x :=
  fun s hs => wp_mono (h s hs) (fun _ _ h => h) fun _ _ _ => trivial

/-- A program run for each of a list, one after another. -/
theorem forM {x : β → EStateM ε σ PUnit} (hx : ∀ b, Stays P F (x b)) (l : List β) :
    Stays P F (l.forM x) := by
  induction l with
  | nil => exact pure _
  | cons b l ih => exact bind (hx b) fun _ => ih

end Stays

end Koh

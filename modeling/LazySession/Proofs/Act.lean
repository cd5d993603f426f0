import LazySession.World

/-!
# Running acts

What the pieces of an act come to, one equation for each. An act that fails keeps the changes it
made before, so each equation gives the world also for a failure.
-/

namespace LazySession

namespace Act

variable {α β : Type}

theorem run_pure (a : α) (w : World) : (pure a : Act α).run w = (.ok a, w) := rfl

theorem run_get (w : World) : (get : Act World).run w = (.ok w, w) := rfl

theorem run_set (w w' : World) : (set w' : Act PUnit).run w = (.ok ⟨⟩, w') := rfl

theorem run_bind (x : Act α) (f : α → Act β) (w : World) :
    (x >>= f).run w = match x.run w with
      | (.ok a, w') => (f a).run w'
      | (.error e, w') => (.error e, w') := by
  simp only [bind, ExceptT.run, ExceptT.bind, ExceptT.mk, StateT.bind, ExceptT.bindCont]
  generalize x w = p
  obtain ⟨r, w'⟩ := p
  cases r <;> rfl

theorem run_tryCatch (x : Act α) (f : Error → Act α) (w : World) :
    (tryCatch x f).run w = match x.run w with
      | (.ok a, w') => (.ok a, w')
      | (.error e, w') => (f e).run w' := by
  simp only [tryCatch, tryCatchThe, MonadExceptOf.tryCatch, ExceptT.tryCatch, ExceptT.run,
    ExceptT.mk, StateT.bind, bind]
  generalize x w = p
  obtain ⟨r, w'⟩ := p
  cases r <;> rfl

theorem run_during (activity : Activity) (x : Act α) (w : World) :
    (x.during activity).run w = ((x.run w).1.mapError (.during activity), (x.run w).2) := by
  unfold during
  rw [run_tryCatch]
  generalize x.run w = p
  obtain ⟨r, w'⟩ := p
  cases r <;> rfl

theorem run_inquire (w : World) :
    inquire.run w =
      (if w.context.patience.inquire.1 then .error .canceled else .ok (),
        { w with context := { w.context with patience := w.context.patience.inquire.2 } }) := by
  simp only [inquire, run_bind, run_get, run_set]
  split <;> rfl

/-- Where an evaluation starts. -/
def start (steps : Nat) (w : World) : EvalState :=
  { heap := w.heap, patience := w.context.patience, steps }

/-- The world with the heap and the patience that an evaluation leaves. -/
def finish (w : World) (s : EvalState) : World :=
  { w with heap := s.heap, context := { w.context with patience := s.patience } }

theorem run_evaluate (steps : Nat) (run : EvalState → Except RuntimeError Value × EvalState)
    (w : World) :
    (evaluate steps run).run w =
      ((run (start steps w)).1.mapError .runtime |>.map (·, (run (start steps w)).2.steps),
        finish w (run (start steps w)).2) := by
  simp only [evaluate, run_bind, run_get, run_set, start, finish]
  generalize run _ = p
  obtain ⟨r, s⟩ := p
  cases r <;> rfl

/-! ## Triples -/

/-- Done in the world `w`, the act ends in a value and a world with `Q`, or in an error and a world
with `E`. -/
def Meets (x : Act α) (w : World) (Q : α → World → Prop) (E : Error → World → Prop) : Prop :=
  match x.run w with
  | (.ok a, w') => Q a w'
  | (.error e, w') => E e w'

section
variable {x : Act α} {f : α → Act β} {w : World}
variable {Q Q' : α → World → Prop} {R : β → World → Prop} {E E' : Error → World → Prop}

instance [∀ a w', Decidable (Q a w')] [∀ e w', Decidable (E e w')] :
    Decidable (x.Meets w Q E) :=
  match h : x.run w with
  | (.ok a, w') => decidable_of_iff (Q a w') (by rw [Meets, h])
  | (.error e, w') => decidable_of_iff (E e w') (by rw [Meets, h])

theorem Meets.mono (h : x.Meets w Q E) (hQ : ∀ a w', Q a w' → Q' a w')
    (hE : ∀ e w', E e w' → E' e w') : x.Meets w Q' E' := by
  unfold Meets at *
  split
  · simp_all
  · simp_all

theorem Meets.and (h : x.Meets w Q E) (h' : x.Meets w Q' E') :
    x.Meets w (fun a w' => Q a w' ∧ Q' a w') fun e w' => E e w' ∧ E' e w' := by
  unfold Meets at *
  generalize x.run w = p at h h' ⊢
  obtain ⟨r, w'⟩ := p
  cases r <;> exact ⟨h, h'⟩

theorem Meets.world {P : World → Prop} (h : x.Meets w (fun _ => P) (fun _ => P)) :
    P (x.run w).2 := by
  unfold Meets at h
  generalize x.run w = p at h
  obtain ⟨r, w'⟩ := p
  cases r <;> exact h

theorem meets_trivial (x : Act α) (w : World) : x.Meets w (fun _ _ => True) fun _ _ => True := by
  unfold Meets
  split <;> trivial

theorem meets_of_run {a : α} {w' : World} (h : x.run w = (.ok a, w')) (hQ : Q a w') :
    x.Meets w Q E := by
  unfold Meets
  rw [h]
  exact hQ

theorem meets_pure {a : α} (h : Q a w) : (pure a : Act α).Meets w Q E := h

theorem meets_throw {e : Error} (h : E e w) : (throw e : Act α).Meets w Q E := h

theorem meets_bind (h : x.Meets w (fun a w' => (f a).Meets w' R E) E) :
    (x >>= f).Meets w R E := by
  unfold Meets at *
  rw [run_bind]
  generalize x.run w = p at h ⊢
  obtain ⟨r, w'⟩ := p
  cases r <;> exact h

theorem meets_get_bind {f : World → Act β} (h : (f w).Meets w R E) :
    ((get : Act World) >>= f).Meets w R E :=
  meets_bind h

theorem meets_set_bind {f : PUnit → Act β} {w' : World} (h : (f ⟨⟩).Meets w' R E) :
    ((set w' : Act PUnit) >>= f).Meets w R E :=
  meets_bind h

theorem meets_set {w' : World} {Q : PUnit → World → Prop} (h : Q ⟨⟩ w') :
    (set w' : Act PUnit).Meets w Q E := h

theorem meets_during {activity : Activity}
    (h : x.Meets w Q fun e w' => E (.during activity e) w') : (x.during activity).Meets w Q E := by
  unfold Meets at *
  rw [run_during]
  generalize x.run w = p at h ⊢
  obtain ⟨r, w'⟩ := p
  cases r <;> exact h

theorem meets_tryCatch {handle : Error → Act α}
    (h : x.Meets w Q fun e w' => (handle e).Meets w' Q E) : (tryCatch x handle).Meets w Q E := by
  unfold Meets at *
  rw [run_tryCatch]
  generalize x.run w = p at h ⊢
  obtain ⟨r, w'⟩ := p
  cases r <;> exact h

end

theorem meets_inquire_patient {w : World} {Q : Unit → World → Prop} {E : Error → World → Prop}
    (hQ : ∀ patience, (w.context.patience = .endless → patience = .endless) →
      Q () { w with context := { w.context with patience } })
    (hE : ∀ patience, w.context.patience ≠ .endless →
      E .canceled { w with context := { w.context with patience } }) : inquire.Meets w Q E := by
  unfold Meets
  rw [run_inquire]
  cases h : w.context.patience with
  | endless => exact hQ _ fun _ => rfl
  | inquiries n =>
    have hne : w.context.patience ≠ .endless := by simp [h]
    cases (Patience.inquiries n).inquire.1 with
    | true => exact hE _ hne
    | false => exact hQ _ fun he => absurd he hne

theorem meets_inquired {w : World} {Q : Unit → World → Prop} {E : Error → World → Prop}
    (h : ∀ patience, (w.context.patience = .endless → patience = .endless) →
      Q () { w with context := { w.context with patience } } ∧
        E .canceled { w with context := { w.context with patience } }) : inquire.Meets w Q E :=
  meets_inquire_patient (fun patience hp => (h patience hp).1) fun patience hne =>
    (h patience fun he => absurd he hne).2

theorem meets_inquire {w : World} {Q : Unit → World → Prop} {E : Error → World → Prop}
    (h : ∀ patience, Q () { w with context := { w.context with patience } } ∧
      E .canceled { w with context := { w.context with patience } }) : inquire.Meets w Q E :=
  meets_inquired fun patience _ => h patience

theorem meets_evaluate {steps : Nat} {run : EvalState → Except RuntimeError Value × EvalState}
    {w : World} {Q : Value × Nat → World → Prop} {E : Error → World → Prop}
    (h : match run (start steps w) with
      | (.ok v, s) => Q (v, s.steps) (finish w s)
      | (.error e, s) => E (.runtime e) (finish w s)) : (evaluate steps run).Meets w Q E := by
  unfold Meets
  rw [run_evaluate]
  generalize run _ = p at h ⊢
  obtain ⟨r, s⟩ := p
  cases r <;> exact h

end Act

end LazySession

import LazySession.Proofs.Loader.Linking

/-!
# What linking leaves alone

`Loader.Kept`: a relation between worlds that holds from before to after each piece of linking and
reading. `Loader.Kept.load` and `Loader.Carried.read`: then it holds from before to after the whole,
whatever that comes to.
-/

namespace LazySession

namespace Loader

/-- Each piece of linking and reading, but for the making of an instance, leads to a world that `R`
relates to the one before. -/
structure Carried (set : Setting) (R : World → World → Prop) : Prop where
  refl : ∀ w, R w w
  trans : ∀ {w w' w''}, R w w' → R w' w'' → R w w''
  inquire : ∀ (w : World) patience, (w.context.patience = .endless → patience = .endless) →
    R w { w with context := { w.context with patience } }
  scope : ∀ w : World, R w { w with heap := (newModuleScope w.heap).2 }
  imports : ∀ (w : World) scope own i fields,
    R w { w with heap := importFields scope own i fields w.heap }
  define : ∀ (w : World) scope defs, R w { w with heap := (defineAll scope defs w.heap).2 }
  force : ∀ w steps v, R w (Act.finish w ((Act.start steps w).force set v).2)

/-- So does the making of an instance. -/
structure Kept (set : Setting) (R : World → World → Prop) : Prop extends Carried set R where
  link : ∀ w id inst, R w (setInstance w id inst)

variable {set : Setting} {R : World → World → Prop} {linkOne : String → Act InstanceId}

/-- Whatever the act comes to, `R` relates the worlds before and after. -/
def Holding {α : Type} (R : World → World → Prop) (x : Act α) : Prop :=
  ∀ w, x.Meets w (fun _ w' => R w w') fun _ w' => R w w'

section
variable {α β : Type} {x : Act α}

theorem holding_of_run (h : ∀ w, R w (x.run w).2) : Holding R x := by
  intro w
  have hw := h w
  unfold Act.Meets
  generalize x.run w = p at hw ⊢
  obtain ⟨r, w'⟩ := p
  cases r <;> exact hw

theorem Holding.world (h : Holding R x) (w : World) : R w (x.run w).2 :=
  Act.Meets.world (P := R w) (h w)

theorem Holding.bind (h : Holding R x) (ht : ∀ {w w' w''}, R w w' → R w' w'' → R w w'')
    {f : α → Act β} (hf : ∀ a, Holding R (f a)) : Holding R (x >>= f) :=
  fun w => Act.meets_bind ((h w).mono
    (fun a w' h' => (hf a w').mono (fun _ _ h'' => ht h' h'') fun _ _ h'' => ht h' h'')
    fun _ _ h' => h')

theorem Holding.during (h : Holding R x) (activity : Activity) : Holding R (x.during activity) :=
  fun w => Act.meets_during (h w)

theorem Holding.rethrow (h : Holding R x) (f : Error → Error) :
    Holding R (tryCatch x fun e => throw (f e)) :=
  fun w => Act.meets_tryCatch ((h w).mono (fun _ _ h' => h') fun _ _ h' => Act.meets_throw h')

end

theorem Carried.holding_evalStrict (k : Carried set R) (mod : String) (fields : Table Value)
    (ds : List Definition) : ∀ steps, Holding R (evalStrict set mod fields steps ds) := by
  induction ds with
  | nil => exact fun _ w => Act.meets_pure (k.refl w)
  | cons d ds ih =>
    intro steps w
    unfold evalStrict
    split
    · refine Act.meets_bind (Act.meets_during (Act.meets_evaluate ?_))
      have hforce := k.force w steps ((fields.get? d.binding.name).getD .unit)
      split <;> rename_i hr <;> rw [hr] at hforce
      · exact (ih _ _).mono (fun _ _ h => k.trans hforce h) fun _ _ h => k.trans hforce h
      · exact hforce
    · exact ih _ _

theorem Carried.holding_linkImports (k : Carried set R) (hone : ∀ i, Holding R (linkOne i)) (mod : String)
    (scope : ScopeId) (own is : List String) :
    Holding R (linkImports linkOne mod scope own is) := by
  induction is with
  | nil => exact fun w => Act.meets_pure (k.refl w)
  | cons i is ih =>
    intro w
    refine Act.meets_bind (Act.meets_during ((hone i w).mono (fun inst w' hw => ?_) fun _ _ h => h))
    refine Act.meets_get_bind (Act.meets_set_bind ?_)
    have hw' := k.trans hw (k.imports w' scope own i ((w'.instances[inst]?.map (·.fields)).getD []))
    exact (ih _).mono (fun _ _ h => k.trans hw' h) fun _ _ h => k.trans hw' h

theorem Kept.holding_link (k : Kept set R) (l : Loader) (fuel : Nat) :
    ∀ visiting name, Holding R (Loader.link set l fuel visiting name) := by
  induction fuel with
  | zero => exact fun _ _ w => Act.meets_throw (k.refl w)
  | succ fuel ih =>
    intro visiting name w
    unfold Loader.link
    refine Act.meets_get_bind ?_
    split
    · exact Act.meets_throw (k.refl w)
    · rename_i id e _
      split
      · exact Act.meets_throw (k.refl w)
      · split
        · exact Act.meets_pure (k.refl w)
        · rw [makeInstance_eq]
          refine Act.meets_get_bind (Act.meets_set_bind (Act.meets_bind ?_))
          refine (k.holding_linkImports (fun i => ih _ i) _ _ _ _ _).mono (fun _ w₁ h₁ => ?_)
            fun _ _ h => k.trans (k.scope w) h
          have h₂ := k.trans (k.trans (k.scope w) h₁)
            (k.define w₁ (newModuleScope w.heap).1 e.code.defs)
          refine Act.meets_get_bind (Act.meets_set_bind (Act.meets_bind ?_))
          refine (k.holding_evalStrict _ _ _ _ _).mono (fun _ w₃ h₃ => ?_)
            fun _ _ h => k.trans h₂ h
          refine Act.meets_get_bind (Act.meets_set_bind (Act.meets_pure ?_))
          exact k.trans (k.trans h₂ h₃) (k.link w₃ _ _)

theorem Kept.load (k : Kept set R) (l : Loader) (name : String) : Holding R (l.load set name) := by
  intro w
  refine Act.meets_bind (Act.meets_inquired fun patience hp => ⟨?_, k.inquire w patience hp⟩)
  have h := k.inquire w patience hp
  exact (k.holding_link l _ [] name _).mono (fun _ _ h' => k.trans h h') fun _ _ h' => k.trans h h'

theorem Carried.read (k : Carried set R) (i : Instance) (field : String) :
    Holding R (i.read set field) := by
  intro w
  refine Act.meets_bind (Act.meets_inquired fun patience hp => ⟨?_, k.inquire w patience hp⟩)
  have h := k.inquire w patience hp
  split
  · exact Act.meets_throw h
  · rename_i v _
    refine Act.meets_bind (Act.meets_evaluate ?_)
    have hforce := k.trans h (k.force { w with context := { w.context with patience } } 0 v)
    split <;> rename_i hr <;> rw [hr] at hforce
    · exact Act.meets_get_bind (Act.meets_pure hforce)
    · exact hforce

theorem kept_cache (set : Setting) : Kept set fun w w' => w'.cache = w.cache where
  refl _ := rfl
  trans h h' := h'.trans h
  inquire _ _ _ := rfl
  scope _ := rfl
  imports _ _ _ _ _ := rfl
  define _ _ _ := rfl
  force _ _ _ := rfl
  link _ _ _ := rfl

end Loader

end LazySession

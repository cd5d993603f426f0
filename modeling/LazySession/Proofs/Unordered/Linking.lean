import LazySession.Proofs.Loader.Linking
import LazySession.Proofs.Unordered.Alike
import LazySession.Proofs.Unordered.Search

/-!
# Linking with fields in any order

The scope of a module gets the fields of its imports one after the other, in any order:
`Unordered.load`. No two of the names that are put there are the same, as fields have no dots in
their names. So every order leads to the same instance, and to worlds that are alike:
`Unordered.follows_load`.
-/

namespace LazySession

namespace Unordered

/-! ## The steps -/

/-- Work on the world that may come out in several ways. -/
abbrev Acting (α : Type) := ExceptT Error (StateT World SetM) α

section
variable {α β : Type}

/-- Work that has one outcome. -/
def just (x : Act α) : Acting α :=
  ExceptT.mk fun w => pure (x.run w)

def during (activity : Activity) (y : Acting α) : Acting α :=
  tryCatch y fun e => throw (.during activity e)

end

/-- Puts the fields of an import into a scope, in any order. -/
def importFields (scope : ScopeId) (own : List String) (imported : String) (fields : Table Value)
    (h : Heap) : SetM Heap := do
  return Loader.importFields scope own imported (← anyOrder fields) h

def linkImports (linkOne : String → Acting InstanceId) (mod : String) (scope : ScopeId)
    (own : List String) : (imports : List String) → Acting Unit
  | [] => return ()
  | i :: is => do
    let inst ← during (.linking mod) (linkOne i)
    let w ← get
    let fields := (w.instances[inst]?.map (·.fields)).getD []
    let heap ← importFields scope own i fields w.heap
    set { w with heap }
    linkImports linkOne mod scope own is

def makeInstance (setting : Setting) (linkOne : String → Acting InstanceId) (id : EntryId)
    (name : String) (code : ModuleCode) : Acting InstanceId := do
  let w ← get
  let (scope, heap) := Loader.newModuleScope w.heap
  set { w with heap }
  linkImports linkOne name scope code.exports code.imports
  let w ← get
  let (fields, heap) := Loader.defineAll scope code.defs w.heap
  set { w with heap }
  just (Loader.evalStrict setting name fields 0 code.defs)
  let w ← get
  set (Loader.setInstance w id { name, fields })
  return w.instances.size

def link (setting : Setting) (l : Loader) :
    (fuel : Nat) → (visiting : List String) → (name : String) → Acting InstanceId
  | 0, visiting, name => throw (.importCycle (visiting ++ [name]))
  | fuel + 1, visiting, name => do
    let w ← get
    match (l.modules.get? name).bind fun id => (w.entries[id]?).map (id, ·) with
    | none => throw (.notLoaded name)
    | some (id, entry) =>
      if visiting.contains name then throw (.importCycle (visiting ++ [name]))
      else match entry.linked with
        | some inst => return inst
        | none => makeInstance setting (link setting l fuel (visiting ++ [name])) id name entry.code

def load (setting : Setting) (l : Loader) (name : String) : Acting InstanceId := do
  just Act.inquire
  link setting l (l.modules.length + 1) [] name

/-! ## Outcomes -/

section
variable {α β : Type}

/-- The results and the worlds that the work may lead to. -/
def outcomes (y : Acting α) (w : World) : SetM (Except Error α × World) := y.run.run w

theorem outcomes_just (x : Act α) (w : World) : outcomes (just x) w = pure (x.run w) := rfl

theorem outcomes_bind (y : Acting α) (g : α → Acting β) (w : World) :
    outcomes (y >>= g) w = outcomes y w >>= fun o => match o with
      | (.ok a, w') => outcomes (g a) w'
      | (.error e, w') => pure (.error e, w') := by
  show (y.run.run w >>= fun o => _) = _
  refine bind_congr fun o => ?_
  obtain ⟨r, w'⟩ := o
  cases r <;> rfl

theorem outcomes_lift (x : SetM α) (w : World) :
    outcomes (liftM x) w = x >>= fun a => pure (.ok a, w) := by
  show ((x >>= fun a => pure (a, w)) >>= fun p => pure (Except.ok p.1, p.2)) = _
  rw [bind_assoc]
  exact bind_congr fun a => pure_bind (m := SetM) _ _

theorem outcomes_lift_bind (x : SetM α) (g : α → Acting β) (w : World) :
    outcomes (liftM x >>= g) w = x >>= fun a => outcomes (g a) w := by
  rw [outcomes_bind, outcomes_lift, bind_assoc]
  exact bind_congr fun a => pure_bind (m := SetM) _ _

theorem outcomes_get_bind (g : World → Acting β) (w : World) :
    outcomes (get >>= g) w = outcomes (g w) w := by
  have hget : outcomes get w = pure (.ok w, w) := pure_bind (m := SetM) (w, w) _
  rw [outcomes_bind, hget]
  exact pure_bind (m := SetM) _ _

theorem outcomes_set_bind (g : PUnit → Acting β) (w w' : World) :
    outcomes (set w' >>= g) w = outcomes (g ⟨⟩) w' := by
  have hset : outcomes (set w') w = pure (.ok ⟨⟩, w') := pure_bind (m := SetM) (PUnit.unit, w') _
  rw [outcomes_bind, hset]
  exact pure_bind (m := SetM) _ _

theorem outcomes_during (activity : Activity) (y : Acting α) (w : World) :
    outcomes (during activity y) w = outcomes y w >>= fun o =>
      pure (o.1.mapError (.during activity), o.2) := by
  show (y.run.run w >>= fun o => _) = _
  refine bind_congr fun o => ?_
  obtain ⟨r, w'⟩ := o
  cases r <;> rfl

end

end Unordered

/-! ## Fields of imports -/

/-- Fields that come once each and have no dots in their names. -/
def Table.Plain (fields : Table Value) : Prop :=
  fields.names.Nodup ∧ ∀ n ∈ fields.names, '.' ∉ n.toList

namespace Loader

/-- One field of an import in the scope of a module. -/
def importField (scope : ScopeId) (own : List String) (imported : String) (h : Heap)
    (p : String × Value) : Heap :=
  let h := h.setVar scope (imported ++ "." ++ p.1) p.2
  if own.contains p.1 then h else h.setVar scope p.1 p.2

section
variable {scope : ScopeId} {own : List String} {imported : String}

theorem importFields_eq (fields : Table Value) (h : Heap) :
    importFields scope own imported fields h =
      fields.foldl (importField scope own imported) h := rfl

theorem alike_importField {h h' : Heap} (a : h.Alike h') (p : String × Value) :
    (importField scope own imported h p).Alike (importField scope own imported h' p) := by
  unfold importField
  have a' := Heap.congruence_alike.setVar a scope (imported ++ "." ++ p.1) p.2
  simp only
  split
  · exact a'
  · exact Heap.congruence_alike.setVar a' scope p.1 p.2

theorem alike_foldl_importField (fields : Table Value) : ∀ {h h' : Heap}, h.Alike h' →
    (fields.foldl (importField scope own imported) h).Alike
      (fields.foldl (importField scope own imported) h') := by
  induction fields with
  | nil => intro h h' a; exact a
  | cons p fields ih => intro h h' a; exact ih (alike_importField a p)

/-- What a name stands for with one more field. -/
theorem get?_importField (h : Heap) (p : String × Value) (id : ScopeId) (x : String) :
    ((importField scope own imported h p).vars id).get? x =
      if scope = id ∧ id < h.scopes.size ∧
        (x = imported ++ "." ++ p.1 ∨ x = p.1 ∧ p.1 ∉ own) then some p.2
      else (h.vars id).get? x := by
  unfold importField
  simp only
  have hsize : (h.setVar scope (imported ++ "." ++ p.1) p.2).scopes.size = h.scopes.size := by
    simp [Heap.setVar]
  split
  · rename_i ho
    rw [Heap.get?_vars_setVar]
    grind
  · rename_i ho
    rw [Heap.get?_vars_setVar, Heap.get?_vars_setVar, hsize]
    grind

theorem outer?_importField (h : Heap) (p : String × Value) (id : ScopeId) :
    (importField scope own imported h p).outer? id = h.outer? id := by
  unfold importField
  simp only
  split
  · rw [Heap.outer?_setVar]
  · rw [Heap.outer?_setVar, Heap.outer?_setVar]

theorem rest_importField (h : Heap) (p : String × Value) :
    (importField scope own imported h p).thunks = h.thunks ∧
      (importField scope own imported h p).cells = h.cells ∧
      (importField scope own imported h p).scopes.size = h.scopes.size := by
  unfold importField
  simp only
  split <;> simp [Heap.setVar]

/-- Two fields may come in either order: a name with a dot in it is not the name of a field. -/
theorem alike_swap_importField (h : Heap) {p q : String × Value} (hne : p.1 ≠ q.1)
    (hp : '.' ∉ p.1.toList) (hq : '.' ∉ q.1.toList) :
    (importField scope own imported (importField scope own imported h p) q).Alike
      (importField scope own imported (importField scope own imported h q) p) := by
  have hdot : ∀ a b : String, '.' ∉ a.toList → a ≠ imported ++ "." ++ b := by
    rintro a b ha rfl
    exact ha (by simp)
  have hinj : imported ++ "." ++ p.1 ≠ imported ++ "." ++ q.1 := by
    intro he
    refine hne (String.toList_inj.mp ?_)
    have := congrArg String.toList he
    simpa using this
  -- no name stands for both
  have hone : ∀ x, ¬ ((x = imported ++ "." ++ p.1 ∨ x = p.1 ∧ p.1 ∉ own) ∧
      (x = imported ++ "." ++ q.1 ∨ x = q.1 ∧ q.1 ∉ own)) := by
    rintro x ⟨rfl | ⟨rfl, -⟩, hx | ⟨hx, -⟩⟩
    · exact hinj hx
    · exact hdot q.1 p.1 hq hx.symm
    · exact hdot p.1 q.1 hp hx
    · exact hne hx
  refine ⟨?_, ?_, ?_, fun id => ?_, fun id x => ?_⟩
  · simp only [rest_importField]
  · simp only [rest_importField]
  · simp only [rest_importField]
  · simp only [outer?_importField]
  · have hx := hone x
    simp only [get?_importField, rest_importField]
    split <;> split <;> simp_all

/-- The fields of an import may come in any order. -/
theorem alike_importFields {fields fields' : Table Value} (hp : fields.Perm fields') :
    ∀ {h h' : Heap}, fields.Plain → h.Alike h' →
      (importFields scope own imported fields h).Alike
        (importFields scope own imported fields' h') := by
  simp only [importFields_eq]
  induction hp with
  | nil => intro h h' _ a; exact a
  | @cons p l l' _ ih =>
    intro h h' hn a
    simp only [Table.Plain, Table.names, List.map_cons, List.nodup_cons, List.forall_mem_cons] at hn
    exact ih ⟨hn.1.2, hn.2.2⟩ (alike_importField a p)
  | swap p q l =>
    intro h h' hn a
    simp only [Table.Plain, Table.names, List.map_cons, List.nodup_cons, List.mem_cons, not_or] at hn
    refine alike_foldl_importField l (.trans ?_ (alike_importField (alike_importField a p) q))
    exact alike_swap_importField h hn.1.1.1 (hn.2 q.1 (.inl rfl)) (hn.2 p.1 (.inr (.inl rfl)))
  | trans h₁ _ ih ih' =>
    intro h h' hn a
    have hn' : Table.Plain _ := ⟨(h₁.map _).nodup_iff.mp hn.1, fun n hm =>
      hn.2 n ((h₁.map _).mem_iff.mpr hm)⟩
    exact (ih hn a).trans (ih' hn' (.refl h'))

end

end Loader

/-! ## Alike worlds -/

/-- The names of definitions and fields have no dots in them. -/
structure World.Plain (w : World) : Prop where
  codes : ∀ (id : EntryId) (e : Entry), w.entries[id]? = some e → e.code.Undotted
  fields : ∀ (id : InstanceId) (i : Instance), w.instances[id]? = some i → i.fields.Plain

theorem World.Plain.aside {w : World} (h : w.Plain) (heap : Heap) (cache : Cache Parsed)
    (context : Context) : ({ w with heap, cache, context } : World).Plain :=
  ⟨h.codes, h.fields⟩

theorem World.Plain.alike {π : Equiv.Perm EntryId} {w w' : World} (h : w.Plain)
    (a : w.Alike π w') : w'.Plain := by
  refine ⟨fun id e he => ?_, ?_⟩
  · have hentry := a.entries (π.symm id)
    rw [Equiv.apply_symm_apply] at hentry
    exact h.codes _ e (hentry ▸ he)
  · rw [a.instances]
    exact h.fields

namespace Unordered

section
variable {α β : Type} {π : Equiv.Perm EntryId} {w w' : World}

/-- In the world `w'`, the work has only outcomes that are alike to what `x` comes to in `w`. -/
def Follows (π : Equiv.Perm EntryId) (w w' : World) (y : Acting α) (x : Act α) : Prop :=
  (x.run w).2.Plain ∧
    Ends (outcomes y w') fun o => o.1 = (x.run w).1 ∧ (x.run w).2.Alike π o.2

theorem follows_pure (a : α) (hw : w.Plain) (h : w.Alike π w') :
    Follows π w w' (pure a) (pure a) :=
  ⟨hw, ends_pure ⟨rfl, h⟩⟩

theorem follows_throw (e : Error) (hw : w.Plain) (h : w.Alike π w') :
    Follows π w w' (throw e : Acting α) (throw e) :=
  ⟨hw, ends_pure ⟨rfl, h⟩⟩

theorem follows_bind {y : Acting α} {x : Act α} {g : α → Acting β} {f : α → Act β}
    (h : Follows π w w' y x) (hf : ∀ a w₁ w₁', w₁.Plain → w₁.Alike π w₁' →
      Follows π w₁ w₁' (g a) (f a)) : Follows π w w' (y >>= g) (x >>= f) := by
  obtain ⟨hplain, hy⟩ := h
  unfold Follows
  rw [Act.run_bind, outcomes_bind]
  generalize x.run w = p at hplain hy
  obtain ⟨r, w₁⟩ := p
  cases r with
  | error e =>
    refine ⟨hplain, hy.bind fun o ho => ?_⟩
    obtain ⟨r', w₁'⟩ := o
    obtain ⟨rfl, halike⟩ := ho
    exact ends_pure ⟨rfl, halike⟩
  | ok a =>
    obtain ⟨⟨o, ho⟩, hall⟩ := hy
    refine ⟨(hf a w₁ o.2 hplain (hall o ho).2).1, Ends.bind ⟨⟨o, ho⟩, hall⟩ fun o' ho' => ?_⟩
    obtain ⟨r', w₁'⟩ := o'
    obtain ⟨rfl, halike⟩ := ho'
    exact (hf a w₁ w₁' hplain halike).2

theorem follows_get_bind {g : World → Acting β} {f : World → Act β}
    (h : Follows π w w' (g w') (f w)) : Follows π w w' (get >>= g) (get >>= f) := by
  unfold Follows
  rw [outcomes_get_bind]
  exact h

theorem follows_set_bind {g : PUnit → Acting β} {f : PUnit → Act β} {w₁ w₁' : World}
    (h : Follows π w₁ w₁' (g ⟨⟩) (f ⟨⟩)) : Follows π w w' (set w₁' >>= g) (set w₁ >>= f) := by
  unfold Follows
  rw [outcomes_set_bind]
  exact h

theorem follows_lift_bind {x : SetM α} {Q : α → Prop} {g : α → Acting β} {f : Act β} (hx : Ends x Q)
    (h : ∀ a, Q a → Follows π w w' (g a) f) : Follows π w w' (liftM x >>= g) f := by
  obtain ⟨a, ha⟩ := hx.1
  refine ⟨(h a (hx.2 a ha)).1, ?_⟩
  rw [outcomes_lift_bind]
  exact hx.bind fun b hb => (h b hb).2

theorem follows_during {y : Acting α} {x : Act α} (activity : Activity) (h : Follows π w w' y x) :
    Follows π w w' (during activity y) (x.during activity) := by
  unfold Follows
  rw [outcomes_during, Act.run_during]
  refine ⟨h.1, h.2.bind fun o ho => ends_pure ⟨?_, ho.2⟩⟩
  rw [ho.1]

theorem follows_just_bind {x y : Act α} {f g : α → Act β} (h : Follows π w w' (just y) x)
    (hf : ∀ a w₁ w₁', w₁.Plain → w₁.Alike π w₁' → Follows π w₁ w₁' (just (g a)) (f a)) :
    Follows π w w' (just (y >>= g)) (x >>= f) := by
  have hbind := follows_bind h hf
  unfold Follows at hbind ⊢
  rw [outcomes_bind, outcomes_just, pure_bind] at hbind
  rw [outcomes_just, Act.run_bind y g w']
  generalize y.run w' = p at hbind ⊢
  obtain ⟨r, w₁'⟩ := p
  cases r <;> exact hbind

theorem follows_just_during {x : Act α} (activity : Activity) (h : Follows π w w' (just x) x) :
    Follows π w w' (just (x.during activity)) (x.during activity) := by
  have hduring := follows_during activity h
  unfold Follows at hduring ⊢
  rw [outcomes_during, outcomes_just, pure_bind] at hduring
  rw [outcomes_just, Act.run_during activity x w']
  exact hduring

theorem follows_inquire (hw : w.Plain) (h : w.Alike π w') :
    Follows π w w' (just Act.inquire) Act.inquire := by
  unfold Follows
  rw [outcomes_just, Act.run_inquire, Act.run_inquire, h.context]
  exact ⟨hw.aside .., ends_pure ⟨rfl, h.onContext _⟩⟩

theorem follows_force (set : Setting) (steps : Nat) (v : Value) (hw : w.Plain)
    (h : w.Alike π w') :
    Follows π w w' (just (Act.evaluate steps (EvalState.force set · v)))
      (Act.evaluate steps (EvalState.force set · v)) := by
  have hstart : (Act.start steps w).Eased Heap.Alike ⟨0, false⟩ (Act.start steps w') :=
    ⟨h.heap, by simp [Act.start, Slack.ease, h.context]⟩
  have hlimit : set.limit = set.limit + (⟨0, false⟩ : Slack).levels := rfl
  have hforce := Machine.eased_force Heap.congruence_alike hlimit rfl hstart v
  unfold Follows
  rw [outcomes_just, Act.run_evaluate, Act.run_evaluate]
  generalize (Act.start steps w).force set v = p at hforce ⊢
  generalize (Act.start steps w').force set v = p' at hforce ⊢
  refine ⟨hw.aside .., ends_pure ?_⟩
  -- there is no limit that only one of the two has
  rcases hforce with ⟨hr, hs⟩ | ⟨e, -, ⟨hne, -⟩ | ⟨hne, -⟩⟩
  · have hsteps : p'.2.steps = p.2.steps := by rw [hs.same]
    have hpatience : p'.2.patience = p.2.patience := by rw [hs.same]; rfl
    refine ⟨by rw [hr, hsteps], ?_⟩
    refine ⟨hs.heap, h.size, h.entries, h.fixed, h.instances, h.cache, ?_⟩
    simp only [Act.finish, hpatience, h.context]
  · exact absurd rfl hne
  · cases hne

theorem follows_evalStrict (set : Setting) (mod : String) (fields : Table Value)
    (ds : List Definition) : ∀ (steps : Nat) {w w' : World}, w.Plain → w.Alike π w' →
    Follows π w w' (just (Loader.evalStrict set mod fields steps ds))
      (Loader.evalStrict set mod fields steps ds) := by
  induction ds with
  | nil => intro steps w w' hw h; exact follows_pure () hw h
  | cons d ds ih =>
    intro steps w w' hw h
    simp only [Loader.evalStrict]
    split
    · refine follows_just_bind (follows_just_during _ (follows_force set steps _ hw h)) ?_
      intro p w₁ w₁' hw₁ h₁
      exact ih p.2 hw₁ h₁
    · exact ih steps hw h

theorem follows_linkImports {one : String → Acting InstanceId} {one' : String → Act InstanceId}
    (hone : ∀ i (w w' : World), w.Plain → w.Alike π w' → Follows π w w' (one i) (one' i))
    (mod : String) (scope : ScopeId) (own : List String) (is : List String) :
    ∀ {w w' : World}, w.Plain → w.Alike π w' →
      Follows π w w' (linkImports one mod scope own is) (Loader.linkImports one' mod scope own is) := by
  induction is with
  | nil => intro w w' hw h; exact follows_pure () hw h
  | cons i is ih =>
    intro w w' hw h
    refine follows_bind (follows_during _ (hone i w w' hw h)) ?_
    intro inst w₁ w₁' hw₁ h₁
    refine follows_get_bind ?_
    simp only [h₁.instances]
    have hfields : Table.Plain ((w₁.instances[inst]?.map (·.fields)).getD []) := by
      cases hi : w₁.instances[inst]? with
      | none => exact ⟨List.nodup_nil, nofun⟩
      | some i => exact hw₁.fields inst i hi
    have hheap : Ends (importFields scope own i ((w₁.instances[inst]?.map (·.fields)).getD [])
        w₁'.heap) fun heap => (Loader.importFields scope own i
          ((w₁.instances[inst]?.map (·.fields)).getD []) w₁.heap).Alike heap :=
      (ends_anyOrder fun _ hp => hp).bind fun fields hp =>
        ends_pure (Loader.alike_importFields hp.symm hfields h₁.heap)
    refine follows_lift_bind hheap fun heap hheap => follows_set_bind ?_
    exact ih (hw₁.aside ..)
      ⟨hheap, h₁.size, h₁.entries, h₁.fixed, rfl, h₁.cache, h₁.context⟩

theorem alike_defineAll (scope : ScopeId) (defs : List Definition) {h h' : Heap} (a : h.Alike h') :
    (Loader.defineAll scope defs h').1 = (Loader.defineAll scope defs h).1 ∧
      (Loader.defineAll scope defs h).2.Alike (Loader.defineAll scope defs h').2 := by
  have step : ∀ (ds : List Definition) (fields : Table Value) {h h' : Heap}, h.Alike h' →
      (ds.foldl (Loader.defineNext scope) (fields, h')).1 =
          (ds.foldl (Loader.defineNext scope) (fields, h)).1 ∧
        (ds.foldl (Loader.defineNext scope) (fields, h)).2.Alike
          (ds.foldl (Loader.defineNext scope) (fields, h')).2 := by
    intro ds
    induction ds with
    | nil => intro fields h h' a; exact ⟨rfl, a⟩
    | cons d ds ih =>
      intro fields h h' a
      obtain ⟨hv, hb⟩ := Heap.congruence_alike.newBinding a d.binding scope d.source d.want
      rw [List.foldl_cons, List.foldl_cons]
      simp only [Loader.defineNext, hv]
      exact ih _ (Heap.congruence_alike.setVar hb _ _ _)
  exact step defs [] a

theorem plain_setInstance (hw : w.Plain) {id : EntryId} {name : String} {fields : Table Value}
    (hfields : fields.Plain) : (Loader.setInstance w id ⟨name, fields⟩).Plain := by
  refine ⟨fun j e he => ?_, fun j i hi => ?_⟩
  · simp only [Loader.setInstance, Array.getElem?_modify] at he
    split at he
    · obtain ⟨e', he', rfl⟩ := Option.map_eq_some_iff.mp he
      exact hw.codes j e' he'
    · exact hw.codes j e he
  · simp only [Loader.setInstance, Array.getElem?_push] at hi
    split at hi
    · cases hi
      exact hfields
    · exact hw.fields j i hi

theorem alike_setInstance (h : w.Alike π w') (id : EntryId) (inst : Instance) :
    (Loader.setInstance w id inst).Alike π (Loader.setInstance w' (π id) inst) := by
  refine ⟨h.heap, ?_, fun j => ?_, fun j hj => h.fixed j ?_, ?_, h.cache, h.context⟩
  · simpa [Loader.setInstance] using h.size
  · simp only [Loader.setInstance, Array.getElem?_modify, h.entries, h.instances,
      π.injective.eq_iff]
  · simpa [Loader.setInstance] using hj
  · simp [Loader.setInstance, h.instances]

theorem follows_makeInstance {one : String → Acting InstanceId} {one' : String → Act InstanceId}
    (hone : ∀ i (w w' : World), w.Plain → w.Alike π w' → Follows π w w' (one i) (one' i))
    (set : Setting) (id : EntryId) (name : String) {code : ModuleCode} (hcode : code.Undotted)
    (hw : w.Plain) (h : w.Alike π w') :
    Follows π w w' (makeInstance set one (π id) name code)
      (Loader.makeInstance set one' id name code) := by
  have hscope : (Loader.newModuleScope w'.heap).1 = (Loader.newModuleScope w.heap).1 := by
    rw [Loader.newModuleScope_fst, Loader.newModuleScope_fst, h.heap.size]
  have hmodule : (Loader.newModuleScope w.heap).2.Alike (Loader.newModuleScope w'.heap).2 := by
    have hroot := Heap.congruence_alike.newScope h.heap (Builtin.all.map fun b => (b.name, .builtin b))
      none
    have hnumber : w'.heap.newRoot.1 = w.heap.newRoot.1 := h.heap.size
    rw [Loader.newModuleScope, Loader.newModuleScope, hnumber]
    exact Heap.congruence_alike.newScope hroot _ _
  rw [Loader.makeInstance_eq]
  unfold makeInstance
  refine follows_get_bind ?_
  generalize Loader.newModuleScope w.heap = p at hscope hmodule ⊢
  generalize Loader.newModuleScope w'.heap = p' at hscope hmodule ⊢
  obtain ⟨scope, heap⟩ := p
  obtain ⟨scope', heap'⟩ := p'
  obtain rfl : scope' = scope := hscope
  refine follows_set_bind (follows_bind ?_ fun _ w₁ w₁' hw₁ h₁ => ?_)
  · exact follows_linkImports hone name scope' _ _ (hw.aside ..)
      (h.onHeap hmodule)
  · refine follows_get_bind ?_
    obtain ⟨hfields, hdefined⟩ := alike_defineAll scope' code.defs h₁.heap
    have hmade := Loader.defined_defineAll scope' code.defs w₁.heap
    generalize Loader.defineAll scope' code.defs w₁.heap = q at hfields hdefined hmade ⊢
    generalize Loader.defineAll scope' code.defs w₁'.heap = q' at hfields hdefined ⊢
    obtain ⟨fields, heap₁⟩ := q
    obtain ⟨fields', heap₁'⟩ := q'
    obtain rfl : fields' = fields := hfields
    refine follows_set_bind (follows_bind ?_ fun _ w₂ w₂' hw₂ h₂ => ?_)
    · exact follows_evalStrict set name fields' code.defs 0 (hw₁.aside ..)
        (h₁.onHeap hdefined)
    · refine follows_get_bind (follows_set_bind ?_)
      rw [h₂.instances]
      have hplain : Table.Plain fields' :=
        ⟨hmade.nodup, fun n hn => hcode n ((hmade.names n).mp hn)⟩
      exact follows_pure _ (plain_setInstance hw₂ hplain) (alike_setInstance h₂ id _)

theorem follows_link (set : Setting) (l : Loader) (fuel : Nat) :
    ∀ (visiting : List String) (name : String) (w w' : World), w.Plain → w.Alike π w' →
      Follows π w w' (link set (l.rename π) fuel visiting name)
        (Loader.link set l fuel visiting name) := by
  induction fuel with
  | zero => intro visiting name w w' hw h; exact follows_throw _ hw h
  | succ fuel ih =>
    intro visiting name w w' hw h
    unfold link Loader.link
    refine follows_get_bind ?_
    have hentry : (((l.rename π).modules.get? name).bind fun id => (w'.entries[id]?).map (id, ·)) =
        ((l.modules.get? name).bind fun id => (w.entries[id]?).map (id, ·)).map
          fun p => (π p.1, p.2) := by
      rw [Loader.get?_rename]
      cases l.modules.get? name with
      | none => rfl
      | some id => simp [h.entries, Function.comp_def]
    rw [hentry]
    cases hget : (l.modules.get? name).bind fun id => (w.entries[id]?).map (id, ·) with
    | none => exact follows_throw _ hw h
    | some p =>
      obtain ⟨id, entry⟩ := p
      have hplain : entry.code.Undotted := by
        obtain ⟨j, -, hj⟩ := Option.bind_eq_some_iff.mp hget
        obtain ⟨e, he, hp⟩ := Option.map_eq_some_iff.mp hj
        cases hp
        exact hw.codes _ _ he
      simp only [Option.map_some]
      split
      · exact follows_throw _ hw h
      · cases entry.linked with
        | some inst => exact follows_pure _ hw h
        | none => exact follows_makeInstance (ih _) set id name hplain hw h

theorem follows_load (set : Setting) (l : Loader) (name : String) (hw : w.Plain)
    (h : w.Alike π w') :
    Follows π w w' (load set (l.rename π) name) (l.load set name) := by
  refine follows_bind (follows_inquire hw h) fun _ w₁ w₁' hw₁ h₁ => ?_
  have hlength : (l.rename π).modules.length = l.modules.length := by simp [Loader.rename]
  rw [hlength]
  exact follows_link set l _ _ _ w₁ w₁' hw₁ h₁

theorem follows_read (set : Setting) (i : Instance) (field : String) (hw : w.Plain)
    (h : w.Alike π w') : Follows π w w' (just (i.read set field)) (i.read set field) := by
  unfold Instance.read
  refine follows_just_bind (follows_inquire hw h) fun _ w₁ w₁' hw₁ h₁ => ?_
  cases i.fields.get? field with
  | none => exact follows_throw _ hw₁ h₁
  | some v =>
    refine follows_just_bind (follows_force set 0 v hw₁ h₁) fun p w₂ w₂' hw₂ h₂ => ?_
    refine ⟨hw₂, ends_pure ⟨?_, h₂⟩⟩
    show Except.ok (w₂'.heap.toHost p.1) = Except.ok (w₂.heap.toHost p.1)
    rw [Heap.toHost_congr h₂.heap.thunks]

end

end Unordered

end LazySession

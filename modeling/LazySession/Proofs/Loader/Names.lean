import LazySession.Loader
import LazySession.Proofs.Eval.Growth
import LazySession.Proofs.Table

/-!
# The names of a module

What linking puts into the scope of a module: the fields of its imports, and then its own
definitions.
-/

namespace LazySession

/-! ## Scopes under construction -/

namespace Heap

variable {h h' : Heap} {scope : ScopeId}

theorem scopes_setVar (h : Heap) (scope : ScopeId) (name : String) (v : Value) (id : ScopeId) :
    (h.setVar scope name v).scopes[id]? =
      if scope = id then h.scopes[id]?.map fun s => { s with vars := s.vars.put name v }
      else h.scopes[id]? := by
  simp [setVar, Array.getElem?_modify]

/-- The names of the scopes in `opened` may have changed from `h` to `h'`, and nothing else that
was there but the states of thunks. -/
structure Fills (opened : List ScopeId) (h h' : Heap) : Prop where
  scopes : ∀ (id : ScopeId) (s : Scope), id ∉ opened → h.scopes[id]? = some s →
    h'.scopes[id]? = some s
  thunks : ∀ (id : ThunkId) (t : Thunk), h.thunks[id]? = some t →
    ∃ state, h'.thunks[id]? = some { t with state }

variable {opened : List ScopeId}

theorem Fills.refl (opened : List ScopeId) (h : Heap) : Fills opened h h where
  scopes _ _ _ hs := hs
  thunks _ t ht := ⟨t.state, ht⟩

theorem Fills.trans {h'' : Heap} (f : Fills opened h h') (f' : Fills opened h' h'') :
    Fills opened h h'' where
  scopes id s hne hs := f'.scopes id s hne (f.scopes id s hne hs)
  thunks id t ht := by
    obtain ⟨state, ht'⟩ := f.thunks id t ht
    obtain ⟨state', ht''⟩ := f'.thunks id _ ht'
    exact ⟨state', ht''⟩

theorem Grows.fills {T : ThunkId → Prop} (g : h.Grows T h') (opened : List ScopeId) :
    Fills opened h h' where
  scopes id s _ hs := g.scopes id s hs
  thunks id t ht := by
    obtain ⟨state, ht', _⟩ := g.thunks id t ht
    exact ⟨state, ht'⟩

theorem Fills.narrow (f : Fills opened h h') (hnew : ∀ id ∈ opened, h.scopes.size ≤ id) :
    Fills [] h h' where
  scopes id s _ hs := by
    have hid := (Array.getElem?_eq_some_iff.mp hs).1
    exact f.scopes id s (fun hm => Nat.not_le_of_lt hid (hnew id hm)) hs
  thunks := f.thunks

theorem Fills.mono {opened' : List ScopeId} (f : Fills opened h h')
    (hs : ∀ id ∈ opened, id ∈ opened') : Fills opened' h h' where
  scopes id s hne := f.scopes id s fun hm => hne (hs id hm)
  thunks := f.thunks

theorem Fills.scopes_size (f : Fills [] h h') : h.scopes.size ≤ h'.scopes.size := by
  refine Nat.le_of_not_lt fun hlt => ?_
  have hs := f.scopes _ _ List.not_mem_nil (Array.getElem?_eq_getElem hlt)
  exact Nat.lt_irrefl _ (Array.getElem?_eq_some_iff.mp hs).1

theorem Fills.thunks_size (f : Fills opened h h') : h.thunks.size ≤ h'.thunks.size := by
  refine Nat.le_of_not_lt fun hlt => ?_
  obtain ⟨_, ht⟩ := f.thunks _ _ (Array.getElem?_eq_getElem hlt)
  exact Nat.lt_irrefl _ (Array.getElem?_eq_some_iff.mp ht).1

theorem fills_setVar (hs : scope ∈ opened) (h : Heap) (name : String) (v : Value) :
    Fills opened h (h.setVar scope name v) where
  scopes id s hne hs' := by
    have hne' : ¬ scope = id := fun he => hne (he ▸ hs)
    rw [scopes_setVar, if_neg hne', hs']
  thunks id t ht := ⟨t.state, ht⟩

theorem fills_setCell (h : Heap) (id : CellId) (v : Value) : Fills [] h (h.setCell id v) where
  scopes _ _ _ hs := hs
  thunks _ t ht := ⟨t.state, ht⟩

end Heap

/-! ## Imported names -/

namespace Loader

/-- The names with those that an import adds, as `importFields` puts them into a scope. -/
def importNames (own : List String) (imported : String) (fields : Table Value)
    (names : Table Value) : Table Value :=
  fields.foldl (fun names (name, v) =>
    let names := names.put (imported ++ "." ++ name) v
    if own.contains name then names else names.put name v) names

theorem fills_importFields (scope : ScopeId) (own : List String) (imported : String)
    (fields : Table Value) :
    ∀ h : Heap, h.Fills [scope] (importFields scope own imported fields h) := by
  induction fields with
  | nil => exact fun h => .refl _ h
  | cons p fields ih =>
    intro h
    refine .trans ?_ (ih _)
    obtain ⟨name, v⟩ := p
    have hs := List.mem_singleton_self scope
    simp only
    split
    · exact Heap.fills_setVar hs _ _ _
    · exact (Heap.fills_setVar hs _ _ _).trans (Heap.fills_setVar hs _ _ _)

theorem scope_importFields {scope : ScopeId} (own : List String) (imported : String)
    (fields : Table Value) {outer : Option ScopeId} : ∀ {h : Heap} {vars : Table Value},
    h.scopes[scope]? = some ⟨vars, outer⟩ →
    (importFields scope own imported fields h).scopes[scope]? =
      some ⟨importNames own imported fields vars, outer⟩ := by
  induction fields with
  | nil => exact fun hs => hs
  | cons p fields ih =>
    intro h vars hs
    obtain ⟨name, v⟩ := p
    refine ih ?_
    simp only
    split <;> simp [Heap.scopes_setVar, hs]

/-- Every name that an import adds is one of its fields. -/
theorem mem_importNames {own : List String} {imported : String} {fields : Table Value}
    {x : String} {v : Value} : ∀ {names : Table Value},
    (importNames own imported fields names).get? x = some v →
    names.get? x = some v ∨ ∃ f, (f, v) ∈ fields ∧
      (x = imported ++ "." ++ f ∨ x = f ∧ f ∉ own) := by
  induction fields with
  | nil => exact fun h => .inl h
  | cons p fields ih =>
    intro names h
    obtain ⟨name, a⟩ := p
    rcases ih h with h | ⟨f, hf, hx⟩
    · simp only at h
      split at h <;> rename_i ho <;> simp only [Table.get?_put] at h <;> grind
    · exact .inr ⟨f, List.mem_cons_of_mem _ hf, hx⟩

/-- An import adds its fields with its name before them, and without unless the module defines the
name itself. No name goes. -/
theorem isSome_importNames {own : List String} {imported : String} {fields : Table Value}
    {x : String} : ∀ {names : Table Value}, (names.get? x).isSome ∨
      (∃ f ∈ fields.names, x = imported ++ "." ++ f ∨ x = f ∧ f ∉ own) →
    ((importNames own imported fields names).get? x).isSome := by
  induction fields with
  | nil => exact fun h => h.resolve_right fun ⟨_, hf, _⟩ => nomatch hf
  | cons p fields ih =>
    intro names h
    obtain ⟨name, v⟩ := p
    refine ih ?_
    rcases h with h | ⟨f, hf, hx⟩
    · refine .inl ?_
      simp only
      split <;> simp only [Table.get?_put] <;> grind
    · rcases List.mem_cons.mp hf with rfl | hf
      · refine .inl ?_
        simp only
        split <;> simp only [Table.get?_put] <;> grind
      · exact .inr ⟨f, hf, hx⟩

end Loader

/-! ## Definitions -/

/-- The value is what the definition makes in a scope. -/
def Definition.Made (d : Definition) (scope : ScopeId) (h : Heap) (v : Value) : Prop :=
  match d.binding.params with
  | p :: ps =>
    v = .closure
      { name := some d.binding.name, param := p, more := ps, body := d.binding.body, scope,
        source := d.source }
  | [] => ∃ id state, v = .thunk id ∧ h.thunks[id]? = some
      { name := d.binding.name, code := some (d.binding.body, scope), source := d.source,
        want := d.want, state }

namespace Definition

theorem Made.mono {d : Definition} {scope : ScopeId} {opened : List ScopeId} {h h' : Heap}
    {v : Value} (m : d.Made scope h v) (f : h.Fills opened h') : d.Made scope h' v := by
  unfold Made at *
  split
  · simp_all
  · rename_i hp
    simp only [hp] at m
    obtain ⟨id, state, rfl, ht⟩ := m
    obtain ⟨state', ht'⟩ := f.thunks id _ ht
    exact ⟨id, state', rfl, ht'⟩

theorem made_newBinding (d : Definition) (scope : ScopeId) (h : Heap) :
    d.Made scope (h.newBinding d.binding scope d.source d.want).2
      (h.newBinding d.binding scope d.source d.want).1 := by
  unfold Made Heap.newBinding
  cases d.binding.params with
  | cons p ps => rfl
  | nil => exact ⟨_, .pending, rfl, by simp [Heap.newThunk]⟩

end Definition

namespace Loader

/-- What making definitions in a scope has come to: `fields` are made of `defs`, not evaluated yet,
and they are on top of the names that the scope had. -/
structure Defined (scope : ScopeId) (defs : List Definition) (fields : Table Value) (h h' : Heap) :
    Prop where
  fills : h.Fills [scope] h'
  thunks : ∀ (id : ThunkId) (t : Thunk), h.thunks[id]? = some t → h'.thunks[id]? = some t
  cells : h'.cells = h.cells
  nodup : fields.names.Nodup
  names : ∀ x, x ∈ fields.names ↔ x ∈ defs.map (·.binding.name)
  made : ∀ p ∈ fields, ∃ d ∈ defs, d.binding.name = p.1 ∧ d.Made scope h' p.2
  fresh : ∀ p ∈ fields, ∀ id, p.2 = .thunk id → h.thunks.size ≤ id
  pending : ∀ p ∈ fields, ∀ (id : ThunkId) (t : Thunk), p.2 = .thunk id →
    h'.thunks[id]? = some t → t.state = .pending
  scope : ∀ vars outer, h.scopes[scope]? = some ⟨vars, outer⟩ → ∃ vars',
    h'.scopes[scope]? = some ⟨vars', outer⟩ ∧
      ∀ x, vars'.get? x = (fields.get? x).or (vars.get? x)

variable {scope : ScopeId} {h h' : Heap} {defs : List Definition} {fields : Table Value}

theorem defined_nil (scope : ScopeId) (h : Heap) : Defined scope [] [] h h where
  fills := .refl _ _
  thunks _ _ ht := ht
  cells := rfl
  nodup := List.nodup_nil
  names x := by simp [Table.names]
  made _ hp := nomatch hp
  fresh _ hp := nomatch hp
  pending _ hp := nomatch hp
  scope vars outer hs := ⟨vars, hs, fun _ => rfl⟩

/-- What a single definition makes in the heap, before its name is put into the scope. -/
theorem newBinding_cases (h : Heap) (b : Binding) (scope : ScopeId) (source : String)
    (want : Option BaseType) :
    (∃ p ps, b.params = p :: ps ∧ h.newBinding b scope source want =
      (.closure { name := some b.name, param := p, more := ps, body := b.body, scope, source }, h)) ∨
    (b.params = [] ∧ h.newBinding b scope source want =
      (.thunk h.thunks.size, (h.newThunk
        { name := b.name, code := some (b.body, scope), source, want, state := .pending }).2)) := by
  unfold Heap.newBinding
  cases b.params with
  | cons p ps => exact .inl ⟨p, ps, rfl, rfl⟩
  | nil => exact .inr ⟨rfl, rfl⟩

/-- One more definition. -/
theorem Defined.snoc (hd : Defined scope defs fields h h') (d : Definition) :
    Defined scope (defs ++ [d])
      (fields.put d.binding.name (h'.newBinding d.binding scope d.source d.want).1) h
      ((h'.newBinding d.binding scope d.source d.want).2.setVar scope d.binding.name
        (h'.newBinding d.binding scope d.source d.want).1) := by
  have hm := d.made_newBinding scope h'
  have hf := (Heap.Grows.newBinding (.refl Heap.anyThunk h') d.binding scope d.source
    d.want).fills [scope]
  -- only a thunk may be new, and it is pending
  have hnew : (h'.newBinding d.binding scope d.source d.want).2.scopes = h'.scopes ∧
      (h'.newBinding d.binding scope d.source d.want).2.cells = h'.cells ∧
      (∀ id, (h'.newBinding d.binding scope d.source d.want).1 = .thunk id →
        id = h'.thunks.size) ∧
      ∀ (id : ThunkId) (t : Thunk),
        (h'.newBinding d.binding scope d.source d.want).2.thunks[id]? = some t →
        h'.thunks[id]? = some t ∨ t.state = .pending := by
    rcases newBinding_cases h' d.binding scope d.source d.want with ⟨p, ps, _, he⟩ | ⟨_, he⟩
    · rw [he]
      exact ⟨rfl, rfl, nofun, fun id t ht => .inl ht⟩
    · rw [he]
      refine ⟨rfl, rfl, fun id hid => by cases hid; rfl, fun id t ht => ?_⟩
      simp only [Heap.newThunk, Array.getElem?_push] at ht
      split at ht
      · cases ht
        exact .inr rfl
      · exact .inl ht
  have hold : ∀ (id : ThunkId) (t : Thunk), h'.thunks[id]? = some t →
      (h'.newBinding d.binding scope d.source d.want).2.thunks[id]? = some t := by
    intro id t ht
    obtain ⟨state, ht', hs⟩ := (Heap.Grows.newBinding (.refl (fun _ => False) h') d.binding scope
      d.source d.want).thunks id t ht
    rw [hs not_false] at ht'
    exact ht'
  generalize h'.newBinding d.binding scope d.source d.want = p at *
  obtain ⟨v, h''⟩ := p
  simp only at hm hf hnew hold ⊢
  obtain ⟨hsc, hcells, hid, hpending⟩ := hnew
  have hsize : h.thunks.size ≤ h'.thunks.size := by
    refine Nat.le_of_not_lt fun hlt => ?_
    have := hd.thunks _ _ (Array.getElem?_eq_getElem hlt)
    exact Nat.lt_irrefl _ (Array.getElem?_eq_some_iff.mp this).1
  have hset := Heap.fills_setVar (List.mem_singleton_self scope) h'' d.binding.name v
  have hf' := hf.trans hset
  refine ⟨hd.fills.trans hf', fun id t ht => hold id t (hd.thunks id t ht), ?_,
    Table.nodup_put hd.nodup _ _, ?_, ?_, ?_, ?_, ?_⟩
  · exact hcells.trans hd.cells
  · intro x
    rw [Table.names_put]
    have := hd.names x
    have := hd.names d.binding.name
    grind
  · rintro ⟨x, a⟩ hp
    rcases Table.mem_put hd.nodup hp with ⟨rfl, rfl⟩ | ⟨_, hp⟩
    · exact ⟨d, by simp, rfl, hm.mono hset⟩
    · obtain ⟨d', hd', hn, hm'⟩ := hd.made _ hp
      exact ⟨d', List.mem_append_left _ hd', hn, hm'.mono hf'⟩
  · rintro ⟨x, a⟩ hp id rfl
    rcases Table.mem_put hd.nodup hp with ⟨_, he⟩ | ⟨_, hp⟩
    · rw [hid id he.symm]
      exact hsize
    · exact hd.fresh _ hp id rfl
  · rintro ⟨x, a⟩ hp id t rfl ht
    rcases hpending id t ht with ht' | hpend
    · rcases Table.mem_put hd.nodup hp with ⟨_, he⟩ | ⟨_, hp⟩
      · rw [hid id he.symm] at ht'
        simp at ht'
      · exact hd.pending _ hp id t rfl ht'
    · exact hpend
  · intro vars outer hs
    obtain ⟨vars', hs', hv⟩ := hd.scope vars outer hs
    refine ⟨vars'.put d.binding.name v, by simp [Heap.scopes_setVar, hsc, hs'], fun x => ?_⟩
    rw [Table.get?_put, Table.get?_put, hv]
    split <;> rfl

/-- One more definition is made. -/
def defineNext (scope : ScopeId) (p : Table Value × Heap) (d : Definition) : Table Value × Heap :=
  let (v, h) := p.2.newBinding d.binding scope d.source d.want
  (p.1.put d.binding.name v, h.setVar scope d.binding.name v)

theorem defineAll_eq (scope : ScopeId) (defs : List Definition) (h : Heap) :
    defineAll scope defs h = defs.foldl (defineNext scope) ([], h) := rfl

theorem defined_defineAll (scope : ScopeId) (defs : List Definition) (h : Heap) :
    Defined scope defs (defineAll scope defs h).1 h (defineAll scope defs h).2 := by
  -- the definitions `ds` are made behind those in `before`
  have step : ∀ (ds before : List Definition) (p : Table Value × Heap),
      Defined scope before p.1 h p.2 →
      Defined scope (before ++ ds) (ds.foldl (defineNext scope) p).1 h
        (ds.foldl (defineNext scope) p).2 := by
    intro ds
    induction ds with
    | nil =>
      intro before p hd
      rw [List.append_nil]
      exact hd
    | cons d ds ih =>
      intro before p hd
      rw [List.append_cons]
      exact ih _ _ (hd.snoc d)
  rw [defineAll_eq]
  exact step defs [] ([], h) (defined_nil scope h)

theorem newBindings_eq (scope : ScopeId) (source : String) (bs : List Binding) (h : Heap) :
    h.newBindings bs scope source =
      (defineAll scope (bs.map fun b => ⟨b, source, none⟩) h).2 := by
  unfold Heap.newBindings defineAll
  generalize ([] : Table Value) = fields
  induction bs generalizing h fields with
  | nil => rfl
  | cons b bs ih =>
    rw [List.foldl_cons, List.map_cons, List.foldl_cons, ih]

end Loader

end LazySession

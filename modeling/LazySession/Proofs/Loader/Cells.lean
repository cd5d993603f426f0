import LazySession.Proofs.Eval.Course

/-!
# Modules of cells

A module whose definitions all make a cell, at once and with `()` in it, is linked to an instance
that holds a cell of its own in every field: `Loader.cellsHeld_link`. Nothing but a write changes
what they hold.
-/

namespace LazySession

/-- All definitions of the module, and there is nothing else in it, make a cell strictly. -/
structure ModuleCode.DefinesCells (c : ModuleCode) : Prop where
  imports : c.imports = []
  defs : ∀ d ∈ c.defs, d.binding.params = [] ∧ d.binding.strict = true ∧ d.want = none ∧
    ∃ p q, d.binding.body = .makesCell p q

/-- They do so with the builtin function. -/
structure ModuleCode.MakesCells (c : ModuleCode) : Prop extends c.DefinesCells where
  newRef : "newRef" ∉ c.exports

namespace Instance

theorem cell?_eq_some {h : Heap} {v : Value} {c : CellId} :
    cell? h v = some c ↔ ∃ id, v = .thunk id ∧ h.thunkValue? id = some (.cell c) := by
  unfold cell?
  cases v with
  | thunk id =>
    simp only [Value.thunk.injEq, exists_eq_left']
    split <;> simp_all
  | _ => simp

/-- Every field has been evaluated to a cell of its own. -/
structure HoldsCells (i : Instance) (h : Heap) : Prop where
  cell : ∀ p ∈ i.fields, ∃ c, cell? h p.2 = some c ∧ c < h.cells.size
  apart : ∀ p ∈ i.fields, ∀ q ∈ i.fields, ∀ c, cell? h p.2 = some c → cell? h q.2 = some c →
    p.1 = q.1

variable {i : Instance} {h h' : Heap}

theorem cell?_settles (s : h.Settles h') {v : Value} {c : CellId} (hc : cell? h v = some c) :
    cell? h' v = some c := by
  rw [cell?_eq_some] at *
  obtain ⟨id, rfl, hv⟩ := hc
  exact ⟨id, rfl, s.thunks id _ hv⟩

theorem HoldsCells.settles (hc : i.HoldsCells h) (s : h.Settles h') : i.HoldsCells h' where
  cell p hp := by
    obtain ⟨c, hcell, hlt⟩ := hc.cell p hp
    have hkept := s.cells c _ (Array.getElem?_eq_getElem hlt)
    exact ⟨c, cell?_settles s hcell, (Array.getElem?_eq_some_iff.mp hkept).1⟩
  apart p hp q hq c hpc hqc := by
    obtain ⟨c₁, h₁, _⟩ := hc.cell p hp
    obtain ⟨c₂, h₂, _⟩ := hc.cell q hq
    have hp' := cell?_settles s h₁
    have hq' := cell?_settles s h₂
    rw [hpc] at hp'
    rw [hqc] at hq'
    cases hp'
    cases hq'
    exact hc.apart p hp q hq c h₁ h₂

theorem HoldsCells.setCell (hc : i.HoldsCells h) (id : CellId) (v : Value) :
    i.HoldsCells (h.setCell id v) where
  cell p hp := by
    obtain ⟨c, hcell, hlt⟩ := hc.cell p hp
    exact ⟨c, hcell, by simpa [Heap.setCell] using hlt⟩
  apart := hc.apart

end Instance

namespace Loader

/-! ## The making -/

/-- The fields will be evaluated to cells, and those in `done` hold a cell of their own already. -/
structure Preparing (scope : ScopeId) (fields : Table Value) (done : List String) (h : Heap) :
    Prop where
  nodup : fields.names.Nodup
  newRef : h.lookup scope "newRef" = some (.builtin .newRef)
  thunk : ∀ x v, (x, v) ∈ fields → ∃ id t p q, v = .thunk id ∧ h.thunks[id]? = some t ∧
    t.name = x ∧ t.code = some (.makesCell p q, scope) ∧ t.want = none ∧
    (t.state = .pending ∧ x ∉ done ∨ ∃ c < h.cells.size, t.state = .done (.cell c))
  apart : ∀ p ∈ fields, ∀ q ∈ fields, ∀ c, Instance.cell? h p.2 = some c →
    Instance.cell? h q.2 = some c → p.1 = q.1

variable {set : Setting} {scope : ScopeId} {fields : Table Value} {done : List String} {h : Heap}

theorem Preparing.holdsCells (hp : Preparing scope fields done h)
    (hdone : ∀ x ∈ fields.names, x ∈ done) (name : String) :
    (⟨name, fields⟩ : Instance).HoldsCells h where
  cell p hm := by
    obtain ⟨id, t, _, _, hv, ht, _, _, _, hs⟩ := hp.thunk p.1 p.2 hm
    rcases hs with ⟨_, hn⟩ | ⟨c, hlt, hs⟩
    · exact absurd (hdone p.1 (List.mem_map_of_mem hm)) hn
    · refine ⟨c, Instance.cell?_eq_some.mpr ⟨id, hv, ?_⟩, hlt⟩
      exact Heap.thunkValue?_eq_some.mpr ⟨t, ht, hs⟩
  apart := hp.apart

theorem Preparing.inj (hp : Preparing scope fields done h) {x y : String} {id : ThunkId}
    (hx : (x, .thunk id) ∈ fields) (hy : (y, .thunk id) ∈ fields) : x = y := by
  obtain ⟨i, t, _, _, hi, ht, hn, _⟩ := hp.thunk x _ hx
  obtain ⟨j, u, _, _, hj, hu, hm, _⟩ := hp.thunk y _ hy
  cases hi
  cases hj
  rw [ht] at hu
  cases hu
  exact hn.symm.trans hm

theorem Preparing.cell_lt (hp : Preparing scope fields done h) {x : String} {v : Value} {c : CellId}
    (hx : (x, v) ∈ fields) (hc : Instance.cell? h v = some c) : c < h.cells.size := by
  obtain ⟨i, t, _, _, rfl, ht, _, _, _, hs⟩ := hp.thunk x v hx
  obtain ⟨i', hi, hv⟩ := Instance.cell?_eq_some.mp hc
  cases hi
  obtain ⟨t', ht', hs'⟩ := Heap.thunkValue?_eq_some.mp hv
  rw [ht] at ht'
  cases ht'
  rcases hs with ⟨hs, _⟩ | ⟨c', hlt, hs⟩
  · rw [hs] at hs'
    cases hs'
  · rw [hs] at hs'
    cases hs'
    exact hlt

/-- One field more is evaluated. -/
theorem Preparing.make (hp : Preparing scope fields done h) {x : String} {id : ThunkId} {t : Thunk}
    (hx : (x, .thunk id) ∈ fields) (ht : h.thunks[id]? = some t) :
    Preparing scope fields (x :: done) (((h.setThunk id .forcing).newCell (some .unit)).2.setThunk id
      (.done (.cell h.cells.size))) := by
  generalize hh' : (((h.setThunk id .forcing).newCell (some .unit)).2.setThunk id
      (.done (.cell h.cells.size))) = h'
  have hscopes : h'.scopes = h.scopes := by rw [← hh']; rfl
  have hself : h'.thunks[id]? = some { t with state := .done (.cell h.cells.size) } := by
    simp [← hh', Heap.setThunk, Heap.newCell, Array.getElem?_modify, ht]
  have hkept : ∀ i, i ≠ id → h'.thunks[i]? = h.thunks[i]? := by
    intro i hne
    simp [← hh', Heap.setThunk, Heap.newCell, Array.getElem?_modify, Ne.symm hne]
  have hcells : h'.cells.size = h.cells.size + 1 := by simp [← hh', Heap.setThunk, Heap.newCell]
  have hcell : Instance.cell? h' (.thunk id) = some h.cells.size :=
    Instance.cell?_eq_some.mpr ⟨id, rfl, Heap.thunkValue?_eq_some.mpr ⟨_, hself, rfl⟩⟩
  -- a field is evaluated now, or has the cell it had before
  have hfield : ∀ y v, (y, v) ∈ fields → (y = x ∧ v = .thunk id) ∨
      (v ≠ .thunk id ∧ y ≠ x ∧ Instance.cell? h' v = Instance.cell? h v) := by
    intro y v hy
    obtain ⟨i, _, _, _, rfl, _⟩ := hp.thunk y v hy
    by_cases hi : i = id
    · subst hi
      exact .inl ⟨hp.inj hy hx, rfl⟩
    · refine .inr ⟨by simpa using hi, ?_, by simp [Instance.cell?, Heap.thunkValue?, hkept i hi]⟩
      rintro rfl
      have he := Table.get?_of_mem hp.nodup hy
      rw [Table.get?_of_mem hp.nodup hx] at he
      cases he
      exact hi rfl
  refine ⟨hp.nodup, ?_, ?_, ?_⟩
  · rw [← hp.newRef]
    exact Heap.lookup_congr hscopes _ _
  · intro y v hy
    obtain ⟨i, t', p, q, rfl, ht', hn, hcode, hwant, hs⟩ := hp.thunk y v hy
    rcases hfield y _ hy with ⟨_, hi⟩ | ⟨hi, hyx, _⟩
    · cases hi
      rw [ht] at ht'
      cases ht'
      exact ⟨_, _, p, q, rfl, hself, hn, hcode, hwant, .inr ⟨_, by omega, rfl⟩⟩
    · refine ⟨i, t', p, q, rfl, (hkept i (by simpa using hi)).trans ht', hn, hcode, hwant, ?_⟩
      rcases hs with ⟨hs, hnot⟩ | ⟨c, hlt, hs⟩
      · exact .inl ⟨hs, by simp [hyx, hnot]⟩
      · exact .inr ⟨c, by omega, hs⟩
  · rintro ⟨y, v⟩ hy ⟨z, u⟩ hz c hyc hzc
    rcases hfield y v hy with ⟨rfl, rfl⟩ | ⟨-, -, hye⟩ <;>
      rcases hfield z u hz with ⟨rfl, rfl⟩ | ⟨-, -, hze⟩
    · rfl
    · rw [hcell] at hyc
      cases hyc
      rw [hze] at hzc
      exact absurd (hp.cell_lt hz hzc) (Nat.lt_irrefl _)
    · rw [hcell] at hzc
      cases hzc
      rw [hye] at hyc
      exact absurd (hp.cell_lt hy hyc) (Nat.lt_irrefl _)
    · rw [hye] at hyc
      rw [hze] at hzc
      exact hp.apart _ hy _ hz c hyc hzc

/-- What comes of evaluating a field: a cell, or an error if there was too little depth or
patience. -/
theorem Preparing.force (set : Setting) (hp : Preparing scope fields done h) {x : String} {v : Value}
    (hx : (x, v) ∈ fields) {s : EvalState} (hs : s.heap = h) :
    (∀ c, s.Visits set v c → c.CallsNewRef) ∧ (s.patience = .endless →
      (s.force set v).2.patience = .endless) ∧
    ((∃ u, (s.force set v).1 = .ok u) ∧ Preparing scope fields (x :: done) (s.force set v).2.heap ∨
      (∃ e, (s.force set v).1 = .error e) ∧ (set.limit < 2 ∨ s.patience ≠ .endless)) := by
  subst hs
  obtain ⟨id, t, p, q, rfl, ht, _, hcode, hwant, hstate⟩ := hp.thunk x v hx
  rcases hstate with ⟨hpending, _⟩ | ⟨c, hlt, hdone⟩
  · have hthrough := Machine.through_makesCell set ht hpending hcode hwant hp.newRef
    refine ⟨fun c hc => hthrough.callsNewRef hc, hthrough.run.patience, ?_⟩
    · rcases hthrough.run.result with ⟨hr, hh⟩ | ⟨hr, _, hwhy⟩
      · refine .inl ⟨⟨_, hr⟩, ?_⟩
        unfold EvalState.force
        rw [hh]
        exact hp.make hx ht
      · exact .inr ⟨hr, hwhy⟩
  · -- it has been evaluated before
    have hd : Machine.demand set.limit (.thunk id) [] s = ⟨.give (.ok (.cell c)), [], s⟩ := by
      simp [Machine.demand, EvalState.demand, ht, hdone]
    have hrun : s.force set (.thunk id) = (.ok (.cell c), s) := by
      unfold EvalState.force
      rw [hd, Machine.run_of_finished (Machine.next_finishes _ _)]
    rw [hrun]
    refine ⟨fun c' hc => ?_, fun h => h, .inl ⟨⟨_, rfl⟩, { hp with thunk := fun y u hy => ?_ }⟩⟩
    · unfold EvalState.Visits at hc
      rw [hd] at hc
      rcases hc.cases_head with rfl | ⟨d, hn, -⟩
      · exact Machine.callsNewRef_give
      · cases hn
    · obtain ⟨i, t', p', q', rfl, ht', hn, hcode', hwant', hs⟩ := hp.thunk y u hy
      refine ⟨i, t', p', q', rfl, ht', hn, hcode', hwant', ?_⟩
      rcases hs with ⟨hs, hnot⟩ | hs
      · refine .inl ⟨hs, ?_⟩
        rw [List.mem_cons, not_or]
        refine ⟨?_, hnot⟩
        rintro rfl
        have he := Table.get?_of_mem hp.nodup hy
        rw [Table.get?_of_mem hp.nodup hx] at he
        cases he
        rw [ht] at ht'
        cases ht'
        rw [hdone] at hs
        cases hs
      · exact .inr hs

theorem Preparing.evalStrict (set : Setting) (mod : String) {ds : List Definition}
    (hds : ∀ d ∈ ds, d.binding.strict = true ∧ d.binding.name ∈ fields.names) :
    ∀ {done : List String} {w : World} (steps : Nat), Preparing scope fields done w.heap →
      (evalStrict set mod fields steps ds).Meets w
        (fun _ w' => (∃ done', Preparing scope fields done' w'.heap ∧ done ⊆ done' ∧
            ∀ d ∈ ds, d.binding.name ∈ done') ∧
          (w.context.patience = .endless → w'.context.patience = .endless))
        (fun _ _ => set.limit < 2 ∨ w.context.patience ≠ .endless) := by
  induction ds with
  | nil =>
    exact fun _ hp => Act.meets_pure ⟨⟨_, hp, List.Subset.refl _, nofun⟩, fun h => h⟩
  | cons d ds ih =>
    intro done w steps hp
    obtain ⟨hstrict, hname⟩ := hds d List.mem_cons_self
    obtain ⟨v, hv⟩ := Option.isSome_iff_exists.mp (Table.get?_isSome.mpr hname)
    unfold Loader.evalStrict
    rw [if_pos hstrict, hv, Option.getD_some]
    refine Act.meets_bind (Act.meets_during (Act.meets_evaluate ?_))
    obtain ⟨-, hpatience, hresult⟩ :=
      hp.force set (Table.mem_of_get? hv) (s := Act.start steps w) rfl
    split <;> rename_i hr <;> rw [hr] at hpatience hresult
    · rcases hresult with ⟨_, hp'⟩ | ⟨⟨e, he⟩, _⟩
      · refine (ih (fun e he => hds e (List.mem_cons_of_mem _ he)) _ hp').mono ?_ ?_
        · rintro _ w' ⟨⟨done', hdone, hsub, hall⟩, hend⟩
          rw [List.cons_subset] at hsub
          refine ⟨⟨done', hdone, hsub.2, ?_⟩, fun h => hend (hpatience h)⟩
          intro e he
          rcases List.mem_cons.mp he with rfl | he
          · exact hsub.1
          · exact hall e he
        · exact fun _ _ h => h.imp_right fun hne h => hne (hpatience h)
      · cases he
    · rcases hresult with ⟨⟨u, hu⟩, _⟩ | ⟨_, hwhy⟩
      · cases hu
      · exact hwhy

/-! ## Linking -/

/-- Every module of cells that is linked holds a cell of its own in every field. None of them goes by
the name of the function that makes cells. -/
def CellsHeld (w : World) : Prop :=
  ∀ (id : EntryId) (e : Entry) (i : InstanceId), w.entries[id]? = some e → e.linked = some i →
    e.code.DefinesCells → e.code.MakesCells ∧
      ∃ inst, w.instances[i]? = some inst ∧ inst.HoldsCells w.heap

/-- From `w` to `w'`, entries keep their code, and modules of cells hold cells. -/
structure CellsKept (w w' : World) : Prop where
  code : ∀ (id : EntryId) (e : Entry), w.entries[id]? = some e →
    ∃ linked, w'.entries[id]? = some { e with linked }
  held : CellsHeld w → CellsHeld w'

theorem CellsKept.refl (w : World) : CellsKept w w := ⟨fun _ e he => ⟨e.linked, he⟩, fun h => h⟩

theorem CellsKept.trans {w w' w'' : World} (h : CellsKept w w') (h' : CellsKept w' w'') :
    CellsKept w w'' where
  code id e he := by
    obtain ⟨linked, he'⟩ := h.code id e he
    obtain ⟨linked', he''⟩ := h'.code id _ he'
    exact ⟨linked', he''⟩
  held hw := h'.held (h.held hw)

theorem cellsKept_of_heap {w w' : World} (hs : w.heap.Settles w'.heap)
    (hi : w'.instances = w.instances) (he : w'.entries = w.entries) : CellsKept w w' where
  code id e hid := ⟨e.linked, by rw [he, hid]⟩
  held hw id e i hid hlinked hcode := by
    rw [he] at hid
    obtain ⟨hmakes, inst, hinst, hcells⟩ := hw id e i hid hlinked hcode
    exact ⟨hmakes, inst, hi ▸ hinst, hcells.settles hs⟩

theorem carried_cellsKept (set : Setting) : Carried set CellsKept where
  refl := .refl
  trans := .trans
  inquire w patience hp := cellsKept_of_heap ((kept_settles set).inquire w patience hp) rfl rfl
  scope w := cellsKept_of_heap ((kept_settles set).scope w) rfl rfl
  imports w scope own i fields :=
    cellsKept_of_heap ((kept_settles set).imports w scope own i fields) rfl rfl
  define w scope defs := cellsKept_of_heap ((kept_settles set).define w scope defs) rfl rfl
  force w steps v := cellsKept_of_heap ((kept_settles set).force w steps v) rfl rfl

/-- An entry is linked: if its module makes cells, the instance has to hold them. -/
theorem cellsKept_setInstance {w : World} {id : EntryId} {inst : Instance}
    (h : ∀ e, w.entries[id]? = some e → e.code.DefinesCells →
      e.code.MakesCells ∧ inst.HoldsCells w.heap) :
    CellsKept w (setInstance w id inst) where
  code id' e he := by
    simp only [setInstance, Array.getElem?_modify]
    by_cases hid : id = id'
    · subst hid
      exact ⟨some w.instances.size, by simp [he]⟩
    · exact ⟨e.linked, by simp [hid, he]⟩
  held hw id' e i he hlinked hcode := by
    simp only [setInstance, Array.getElem?_modify] at he
    by_cases hid : id = id'
    · subst hid
      rw [if_pos rfl] at he
      obtain ⟨e', he', rfl⟩ := Option.map_eq_some_iff.mp he
      cases hlinked
      obtain ⟨hmakes, hcells⟩ := h e' he' hcode
      exact ⟨hmakes, inst, by simp [setInstance], hcells⟩
    · rw [if_neg hid] at he
      obtain ⟨hmakes, inst', hinst', hcells⟩ := hw id' e i he hlinked hcode
      have hlt := (Array.getElem?_eq_some_iff.mp hinst').1
      refine ⟨hmakes, inst', ?_, hcells⟩
      simp only [setInstance, Array.getElem?_push]
      rw [if_neg (by omega), hinst']

/-- The functions that every module starts with, by their names. -/
def builtins : Table Value := Builtin.all.map fun b => (b.name, .builtin b)

theorem lookup_module {root : ScopeId} {vars : Table Value} (hlt : root < scope)
    (hr : h.scopes[root]? = some ⟨builtins, none⟩) (hs : h.scopes[scope]? = some ⟨vars, some root⟩)
    (x : String) : h.lookup scope x = (vars.get? x).or (builtins.get? x) := by
  rw [Heap.lookup_eq hs, Option.bind_some, if_pos hlt, Heap.lookup_eq hr, Option.bind_none,
    Option.or_none]

/-- The definitions of a module of cells have been made and none has been evaluated. -/
structure Defines (scope : ScopeId) (code : ModuleCode) (fields : Table Value) (h : Heap) : Prop where
  nodup : fields.names.Nodup
  names : ∀ x, x ∈ fields.names ↔ x ∈ code.exports
  thunk : ∀ x v, (x, v) ∈ fields → ∃ id t p q, v = .thunk id ∧ h.thunks[id]? = some t ∧
    t.name = x ∧ t.code = some (.makesCell p q, scope) ∧ t.want = none ∧ t.state = .pending
  newRef : h.lookup scope "newRef" = (fields.get? "newRef").or (some (.builtin .newRef))

theorem defines_defineAll (h : Heap) {code : ModuleCode} (hc : code.DefinesCells) :
    Defines (newModuleScope h).1 code
      (defineAll (newModuleScope h).1 code.defs (newModuleScope h).2).1
      (defineAll (newModuleScope h).1 code.defs (newModuleScope h).2).2 := by
  have hd := defined_defineAll (newModuleScope h).1 code.defs (newModuleScope h).2
  have hlt : h.scopes.size < (newModuleScope h).1 := by
    rw [newModuleScope_fst]
    exact Nat.lt_succ_self _
  have hroot := hd.fills.scopes _ _ (by simpa using Nat.ne_of_lt hlt) (root_newModuleScope h)
  obtain ⟨vars, hvars, hget⟩ := hd.scope [] _ (scope_newModuleScope h)
  generalize defineAll (newModuleScope h).1 code.defs (newModuleScope h).2 = p at *
  obtain ⟨fields, h'⟩ := p
  simp only at hd hroot hvars hget ⊢
  refine ⟨hd.nodup, hd.names, fun x v hx => ?_, ?_⟩
  · obtain ⟨d, hdm, hn, hm⟩ := hd.made _ hx
    obtain ⟨hparams, -, hwant, p, q, hbody⟩ := hc.defs d hdm
    unfold Definition.Made at hm
    simp only [hparams] at hm
    obtain ⟨id, state, hv, ht⟩ := hm
    refine ⟨id, _, p, q, hv, ht, hn, by simp only [hbody], hwant, ?_⟩
    exact hd.pending _ hx id _ hv ht
  · rw [lookup_module hlt hroot hvars, hget, Table.get?, Option.or_none]
    rfl

theorem Defines.preparing {code : ModuleCode} (hd : Defines scope code fields h)
    (hnew : "newRef" ∉ code.exports) : Preparing scope fields [] h := by
  refine ⟨hd.nodup, ?_, ?_, ?_⟩
  · have hnone : fields.get? "newRef" = none := by
      rw [Table.get?_eq_none, hd.names]
      exact hnew
    rw [hd.newRef, hnone, Option.none_or]
  · intro x v hx
    obtain ⟨id, t, p, q, hv, ht, hn, hcode, hwant, hs⟩ := hd.thunk x v hx
    exact ⟨id, t, p, q, hv, ht, hn, hcode, hwant, .inl ⟨hs, List.not_mem_nil⟩⟩
  · rintro ⟨x, v⟩ hx _ _ c hcell
    obtain ⟨id, t, _, _, rfl, ht, _, _, _, hs⟩ := hd.thunk x v hx
    obtain ⟨_, hid, hv⟩ := Instance.cell?_eq_some.mp hcell
    cases hid
    obtain ⟨t', ht', hs'⟩ := Heap.thunkValue?_eq_some.mp hv
    rw [ht] at ht'
    cases ht'
    rw [hs] at hs'
    cases hs'

/-- With a cell by the name of the function that makes cells, no field can be evaluated. -/
theorem Defines.fails {code : ModuleCode} (hd : Defines scope code fields h)
    (hnew : "newRef" ∈ code.exports) (set : Setting) {x : String} {v : Value} (hx : (x, v) ∈ fields)
    {s : EvalState} (hs : s.heap = h) :
    (∀ c, s.Visits set v c → c.CallsNewRef) ∧ ∃ e, (s.force set v).1 = .error e := by
  subst hs
  obtain ⟨u, hu⟩ := Option.isSome_iff_exists.mp (Table.get?_isSome.mpr ((hd.names _).mpr hnew))
  have hl := hd.newRef
  rw [hu, Option.some_or] at hl
  obtain ⟨k, t', p', q', rfl, ht', -, hcode', -, hp'⟩ := hd.thunk _ _ (Table.mem_of_get? hu)
  obtain ⟨id, t, p, q, rfl, ht, -, hcode, -, hp⟩ := hd.thunk x v hx
  have hthrough := Machine.through_captured set ht hp hcode hl ht' hp' hcode'
  exact ⟨fun c hc => hthrough.callsNewRef hc, hthrough.run⟩

/-- Making the definitions of a module of cells and evaluating them gives cells. -/
theorem holdsCells_evalStrict (w : World) {code : ModuleCode} (hc : code.MakesCells) (name : String) :
    (evalStrict set name (defineAll (newModuleScope w.heap).1 code.defs
        (newModuleScope w.heap).2).1 0 code.defs).Meets
      { w with heap := (defineAll (newModuleScope w.heap).1 code.defs (newModuleScope w.heap).2).2 }
      (fun _ w' => Instance.HoldsCells ⟨name, (defineAll (newModuleScope w.heap).1 code.defs
        (newModuleScope w.heap).2).1⟩ w'.heap ∧
        (w.context.patience = .endless → w'.context.patience = .endless))
      (fun _ _ => set.limit < 2 ∨ w.context.patience ≠ .endless) := by
  have hnames := (defined_defineAll (newModuleScope w.heap).1 code.defs (newModuleScope w.heap).2).names
  refine (((defines_defineAll w.heap hc.toDefinesCells).preparing hc.newRef).evalStrict set name
    (fun d hd => ?_) 0).mono ?_ fun _ _ h => h
  · exact ⟨(hc.defs d hd).2.1, (hnames _).mpr (List.mem_map_of_mem hd)⟩
  · rintro _ w' ⟨⟨done, hp, -, hall⟩, hend⟩
    refine ⟨hp.holdsCells (fun x hx => ?_) name, hend⟩
    obtain ⟨d, hd, rfl⟩ := List.mem_map.mp ((hnames x).mp hx)
    exact hall d hd

/-- With a cell by the name of the function that makes cells, there are none. -/
theorem fails_evalStrict (w : World) {code : ModuleCode} (hc : code.DefinesCells)
    (hnew : "newRef" ∈ code.exports) (name : String) :
    (evalStrict set name (defineAll (newModuleScope w.heap).1 code.defs
        (newModuleScope w.heap).2).1 0 code.defs).Meets
      { w with heap := (defineAll (newModuleScope w.heap).1 code.defs (newModuleScope w.heap).2).2 }
      (fun _ _ => False) (fun _ _ => True) := by
  have hd := defines_defineAll w.heap hc
  generalize defineAll (newModuleScope w.heap).1 code.defs (newModuleScope w.heap).2 = p at *
  obtain ⟨fields, h'⟩ := p
  simp only at hd ⊢
  obtain ⟨d, ds, hds⟩ : ∃ d ds, code.defs = d :: ds := by
    cases hdefs : code.defs with
    | nil => simp [ModuleCode.exports, hdefs] at hnew
    | cons d ds => exact ⟨d, ds, rfl⟩
  have hname : d.binding.name ∈ fields.names :=
    (hd.names _).mpr (List.mem_map_of_mem (hds ▸ List.mem_cons_self))
  obtain ⟨v, hv⟩ := Option.isSome_iff_exists.mp (Table.get?_isSome.mpr hname)
  rw [hds]
  unfold evalStrict
  rw [if_pos (hc.defs d (hds ▸ List.mem_cons_self)).2.1, hv, Option.getD_some]
  refine Act.meets_bind (Act.meets_during (Act.meets_evaluate ?_))
  obtain ⟨-, e, he⟩ := hd.fails hnew set (Table.mem_of_get? hv) (s := Act.start 0 { w with heap := h' })
    rfl
  split <;> rename_i hr <;> rw [hr] at he
  · cases he
  · trivial

theorem cellsKept_link (set : Setting) (l : Loader) (fuel : Nat) :
    ∀ visiting name, Holding CellsKept (Loader.link set l fuel visiting name) := by
  have k := carried_cellsKept set
  induction fuel with
  | zero => exact fun _ _ w => Act.meets_throw (.refl w)
  | succ fuel ih =>
    intro visiting name w
    unfold Loader.link
    refine Act.meets_get_bind ?_
    split
    · exact Act.meets_throw (.refl w)
    · rename_i id e hid
      obtain ⟨id', hk, hid⟩ := Option.bind_eq_some_iff.mp hid
      obtain ⟨e', he, heq⟩ := Option.map_eq_some_iff.mp hid
      obtain ⟨rfl, rfl⟩ := Prod.mk.inj heq
      split
      · exact Act.meets_throw (.refl w)
      · split
        · exact Act.meets_pure (.refl w)
        · rw [makeInstance_eq]
          refine Act.meets_get_bind (Act.meets_set_bind (Act.meets_bind ?_))
          by_cases hcells : e'.code.DefinesCells
          · -- there is nothing to import
            rw [hcells.imports]
            refine Act.meets_pure (Act.meets_get_bind (Act.meets_set_bind (Act.meets_bind ?_)))
            have h₁ := k.trans (k.scope w)
              (k.define { w with heap := (newModuleScope w.heap).2 } (newModuleScope w.heap).1
                e'.code.defs)
            by_cases hnew : "newRef" ∈ e'.code.exports
            · exact ((fails_evalStrict w hcells hnew name).and
                (k.holding_evalStrict name _ e'.code.defs 0 _)).mono (fun _ _ h => h.1.elim)
                fun _ _ h => k.trans h₁ h.2
            refine ((holdsCells_evalStrict w ⟨hcells, hnew⟩ name).and
              (k.holding_evalStrict name _ e'.code.defs 0 _)).mono ?_ fun _ _ h => k.trans h₁ h.2
            rintro _ w₂ ⟨⟨hholds, _⟩, h₂⟩
            refine Act.meets_get_bind (Act.meets_set_bind (Act.meets_pure ?_))
            refine k.trans (k.trans h₁ h₂) (cellsKept_setInstance fun e he' _ => ⟨?_, hholds⟩)
            -- the strict definitions of the module have left its code as it was
            obtain ⟨linked, he₂⟩ := (k.trans h₁ h₂).code id' e' he
            rw [he'] at he₂
            cases he₂
            exact ⟨hcells, hnew⟩
          · refine (k.holding_linkImports (fun i => ih _ i) _ _ _ _ _).mono (fun _ w₁ h₁ => ?_)
              fun _ _ h => k.trans (k.scope w) h
            have h₂ := k.trans (k.trans (k.scope w) h₁)
              (k.define w₁ (newModuleScope w.heap).1 e'.code.defs)
            refine Act.meets_get_bind (Act.meets_set_bind (Act.meets_bind ?_))
            refine (k.holding_evalStrict _ _ _ _ _).mono (fun _ w₃ h₃ => ?_)
              fun _ _ h => k.trans h₂ h
            refine Act.meets_get_bind (Act.meets_set_bind (Act.meets_pure ?_))
            refine k.trans (k.trans h₂ h₃) (cellsKept_setInstance fun e he' hmakes => ?_)
            obtain ⟨linked, he₃⟩ := (k.trans h₂ h₃).code id' e' he
            rw [he'] at he₃
            cases he₃
            exact absurd hmakes hcells

theorem cellsKept_load (set : Setting) (l : Loader) (name : String) :
    Holding CellsKept (l.load set name) := by
  have k := carried_cellsKept set
  intro w
  refine Act.meets_bind (Act.meets_inquired fun patience hp => ⟨?_, k.inquire w patience hp⟩)
  have h := k.inquire w patience hp
  exact (cellsKept_link set l _ [] name _).mono (fun _ _ h' => k.trans h h') fun _ _ h' => k.trans h h'

theorem carried_entries (set : Setting) : Carried set fun w w' => w'.entries = w.entries where
  refl _ := rfl
  trans h h' := h'.trans h
  inquire _ _ _ := rfl
  scope _ := rfl
  imports _ _ _ _ _ := rfl
  define _ _ _ := rfl
  force _ _ _ := rfl

/-- A module of cells has been linked, and no other; no patience has been lost. -/
structure LinksCells (l : Loader) (name : String) (w w' : World) : Prop where
  endless : w.context.patience = .endless → w'.context.patience = .endless
  entries : ∀ id, l.modules.get? name ≠ some id → w'.entries[id]? = w.entries[id]?

/-- Linking a module of cells fails only for want of depth or patience. -/
theorem linksCells_link (set : Setting) {l : Loader} {w : World} {name : String} {id : EntryId}
    {e : Entry} (hid : l.modules.get? name = some id) (he : w.entries[id]? = some e)
    (hc : e.code.MakesCells) (fuel : Nat) :
    (link set l (fuel + 1) [] name).Meets w (fun _ w' => LinksCells l name w w')
      (fun _ _ => set.limit < 2 ∨ w.context.patience ≠ .endless) := by
  unfold link
  refine Act.meets_get_bind ?_
  simp only [hid, he, Option.bind_some, Option.map_some]
  split
  · rename_i hv
    simp at hv
  · split
    · exact Act.meets_pure ⟨fun h => h, fun _ _ => rfl⟩
    · rw [makeInstance_eq]
      refine Act.meets_get_bind (Act.meets_set_bind (Act.meets_bind ?_))
      rw [hc.imports]
      refine Act.meets_pure (Act.meets_get_bind (Act.meets_set_bind (Act.meets_bind ?_)))
      refine ((holdsCells_evalStrict w hc name).and ((carried_entries set).holding_evalStrict name _
        e.code.defs 0 _)).mono ?_ fun _ _ h => h.1
      rintro _ w₁ ⟨⟨-, hend⟩, hentries⟩
      refine Act.meets_get_bind (Act.meets_set_bind (Act.meets_pure ⟨hend, fun id' hne => ?_⟩))
      have hne' : id ≠ id' := fun heq => hne (heq ▸ hid)
      simp only [setInstance, Array.getElem?_modify, if_neg hne', hentries]

theorem linksCells_load (set : Setting) {l : Loader} {w : World} {name : String}
    {code : ModuleCode} (hcode : l.code? w name = some code) (hc : code.MakesCells) :
    (l.load set name).Meets w (fun _ w' => LinksCells l name w w')
      (fun _ _ => set.limit < 2 ∨ w.context.patience ≠ .endless) := by
  obtain ⟨id, hid, hcode⟩ := Option.bind_eq_some_iff.mp hcode
  obtain ⟨e, he, rfl⟩ := Option.map_eq_some_iff.mp hcode
  refine Act.meets_bind (Act.meets_inquire_patient (fun patience hp => ?_) fun _ hne => .inr hne)
  refine (linksCells_link set (w := { w with context := { w.context with patience } }) hid he hc
    _).mono (fun _ _ h => ⟨fun he => h.endless (hp he), h.entries⟩) ?_
  exact fun _ _ h => h.imp_right fun hne he => hne (hp he)

end Loader

end LazySession

import LazySession.Proofs.Loader.Linking
import LazySession.Proofs.Renaming.Machine
import LazySession.Proofs.Renaming.Program

/-!
# Modules in another order

A module that imports nothing is linked by making its definitions. Made in another order, those
without parameters become thunks of other numbers. `Loader.renamed_define`: the two heaps differ in
names only, each thunk standing for the one of the same name.
-/

namespace LazySession

namespace Loader

/-! ## Sizes -/

/-- Every definition without parameters makes a thunk, and none makes a scope. -/
theorem sizes_defineAll (scope : ScopeId) (defs : List Definition) (h : Heap) :
    (defineAll scope defs h).2.thunks.size =
        h.thunks.size + (defs.map (·.binding)).countP (·.params.isEmpty) ∧
      (defineAll scope defs h).2.scopes.size = h.scopes.size := by
  have step : ∀ (ds : List Definition) (p : Table Value × Heap),
      (ds.foldl (defineNext scope) p).2.thunks.size =
          p.2.thunks.size + (ds.map (·.binding)).countP (·.params.isEmpty) ∧
        (ds.foldl (defineNext scope) p).2.scopes.size = p.2.scopes.size := by
    intro ds
    induction ds with
    | nil => exact fun p => ⟨rfl, rfl⟩
    | cons d ds ih =>
      intro p
      obtain ⟨hthunks, hscopes⟩ := ih (defineNext scope p d)
      rw [List.foldl_cons, hthunks, hscopes, List.map_cons, List.countP_cons]
      unfold defineNext
      rcases newBinding_cases p.2 d.binding scope d.source d.want with ⟨q, qs, hp, he⟩ | ⟨hp, he⟩
      · simp [he, hp, Heap.setVar]
      · simp [he, hp, Heap.setVar, Heap.newThunk]
        omega
  exact step defs ([], h)

/-! ## Two orders -/

/-- The fields that the definitions of a module without imports make, and the heap with them. -/
def defineModule (defs : List Definition) (h : Heap) : Table Value × Heap :=
  defineAll (newModuleScope h).1 defs (newModuleScope h).2

theorem defined_defineModule (defs : List Definition) (h : Heap) :
    Defined (newModuleScope h).1 defs (defineModule defs h).1 (newModuleScope h).2
      (defineModule defs h).2 :=
  defined_defineAll _ defs _

/-- A thunk is made for every definition without parameters, and two scopes for the module. -/
theorem sizes_defineModule (defs : List Definition) (h : Heap) :
    (defineModule defs h).2.thunks.size =
        h.thunks.size + (defs.map (·.binding)).countP (·.params.isEmpty) ∧
      (defineModule defs h).2.cells = h.cells ∧
      (defineModule defs h).2.scopes.size = h.scopes.size + 2 := by
  obtain ⟨hthunks, hscopes⟩ := sizes_defineAll (newModuleScope h).1 defs (newModuleScope h).2
  refine ⟨hthunks, (defined_defineModule defs h).cells, hscopes.trans ?_⟩
  simp [newModuleScope, Heap.newRoot, Heap.newScope]

/-- Thunks that are held under the same name stand for each other, and those that come later for
themselves. What was there before is out of sight. -/
def definedAlike (R : String → String → Prop) (h : Heap) (p p' : Table Value × Heap) : Renaming where
  sources := R
  thunks a b := (∃ x, p.1.get? x = some (.thunk a) ∧ p'.1.get? x = some (.thunk b)) ∨
    (b = a ∧ p.2.thunks.size ≤ a)
  cell := h.cells.size
  scope := h.scopes.size

section
variable {R : String → String → Prop} {defs defs' : List Definition} {scope : ScopeId}
variable {h h₁ h₁' : Heap} {fields fields' : Table Value}

theorem Defined.thunk_name (hd : Defined scope defs fields h h₁) {x : String} {id : ThunkId}
    (hx : fields.get? x = some (.thunk id)) : ∃ t, h₁.thunks[id]? = some t ∧ t.name = x := by
  obtain ⟨d, -, rfl, hm⟩ := hd.made _ (Table.mem_of_get? hx)
  unfold Definition.Made at hm
  split at hm
  · cases hm
  · obtain ⟨_, state, hid, ht⟩ := hm
    cases hid
    exact ⟨_, ht, rfl⟩

theorem Defined.thunk_lt (hd : Defined scope defs fields h h₁) {x : String} {id : Nat}
    (hx : fields.get? x = some (.thunk id)) : id < h₁.thunks.size := by
  obtain ⟨t, ht, -⟩ := hd.thunk_name hx
  exact (Array.getElem?_eq_some_iff.mp ht).1

theorem Defined.thunk_inj (hd : Defined scope defs fields h h₁) {x y : String} {id : ThunkId}
    (hx : fields.get? x = some (.thunk id)) (hy : fields.get? y = some (.thunk id)) : x = y := by
  obtain ⟨t, ht, htx⟩ := hd.thunk_name hx
  obtain ⟨u, hu, huy⟩ := hd.thunk_name hy
  rw [← htx, ← huy, Option.some.inj (ht.symm.trans hu)]

theorem oneToOne_definedAlike (g : Heap) (hd : Defined scope defs fields h h₁)
    (hd' : Defined scope defs' fields' h h₁') (hsize : h₁'.thunks.size = h₁.thunks.size) :
    OneToOne (definedAlike R g (fields, h₁) (fields', h₁')).thunks := by
  rintro a b a' b' (⟨x, hx, hx'⟩ | ⟨rfl, hle⟩) (⟨y, hy, hy'⟩ | ⟨rfl, hle'⟩)
  · constructor
    · rintro rfl
      obtain rfl := hd.thunk_inj hx hy
      exact Value.thunk.inj (Option.some.inj (hx'.symm.trans hy'))
    · rintro rfl
      obtain rfl := hd'.thunk_inj hx' hy'
      exact Value.thunk.inj (Option.some.inj (hx.symm.trans hy))
  -- a thunk that comes later is held under no name
  · have ha := hd.thunk_lt hx
    have hb := hd'.thunk_lt hx'
    simp only at hle'
    omega
  · have ha := hd.thunk_lt hy
    have hb := hd'.thunk_lt hy'
    simp only at hle
    omega
  · exact Iff.rfl

/-- The fields of one name are made of definitions that stand for each other. -/
theorem Defined.counterparts (hd : Defined scope defs fields h h₁)
    (hd' : Defined scope defs' fields' h h₁') (hr : Reordered (Definition.Renamed R) defs defs')
    (hn : (defs.map (·.binding.name)).Nodup) (x : String) :
    Option.Rel (fun v v' => ∃ d d', Definition.Renamed R d d' ∧ d.Made scope h₁ v ∧
      d'.Made scope h₁' v') (fields.get? x) (fields'.get? x) := by
  have hperm := hr.map_perm fun d d' hdd => congrArg BindingOf.name hdd.binding.symm
  have hiff : x ∈ fields.names ↔ x ∈ fields'.names := by
    rw [hd.names, hd'.names, hperm.mem_iff]
  cases hx : fields.get? x with
  | none =>
    rw [Table.get?_eq_none, hiff, ← Table.get?_eq_none] at hx
    rw [hx]
    exact .none
  | some v =>
    have hx' : (fields'.get? x).isSome := by
      rw [Table.get?_isSome, ← hiff, ← Table.get?_isSome, hx]
      rfl
    obtain ⟨v', hv'⟩ := Option.isSome_iff_exists.mp hx'
    rw [hv']
    obtain ⟨d, hmem, hname, hm⟩ := hd.made _ (Table.mem_of_get? hx)
    obtain ⟨d', hmem', hname', hm'⟩ := hd'.made _ (Table.mem_of_get? hv')
    obtain ⟨e, he, hde⟩ := hr.mem_left hmem
    -- no two definitions have the same name
    have hsame : e = d' := by
      refine List.inj_on_of_nodup_map (hperm.nodup hn) he hmem' ?_
      rw [hde.binding, hname, hname']
    exact .some ⟨d, d', hsame ▸ hde, hm, hm'⟩

end

section
variable {R : String → String → Prop} {defs defs' : List Definition} {scope : ScopeId}
variable {g h h₁ h₁' : Heap} {fields fields' : Table Value}
variable (hd : Defined scope defs fields h h₁) (hd' : Defined scope defs' fields' h h₁')
variable (hr : Reordered (Definition.Renamed R) defs defs')
variable (hn : (defs.map (·.binding.name)).Nodup)
include hd hd' hr hn

theorem renamed_fields (hscope : g.scopes.size ≤ scope) (x : String) :
    Option.Rel (Value.Renamed (definedAlike R g (fields, h₁) (fields', h₁'))) (fields.get? x)
      (fields'.get? x) := by
  rcases rel_cases (hd.counterparts hd' hr hn x) with
    ⟨hx, hx'⟩ | ⟨v, v', hx, hx', d, d', hdd, hm, hm'⟩
  · rw [hx, hx']
    exact .none
  · rw [hx, hx']
    unfold Definition.Made at hm hm'
    rw [hdd.binding] at hm'
    cases hp : d.binding.params with
    | cons q qs =>
      simp only [hp] at hm hm'
      subst hm hm'
      exact .some (.closure ⟨hscope, hdd.source, rfl⟩)
    | nil =>
      simp only [hp] at hm hm'
      obtain ⟨a, _, rfl, _⟩ := hm
      obtain ⟨b, _, rfl, _⟩ := hm'
      exact .some (.thunk (.inl ⟨x, hx, hx'⟩))

/-- The thunks of one name are waiting to evaluate the same. -/
theorem renamed_held (hscope : g.scopes.size ≤ scope) {x : String} {a b : ThunkId}
    (hx : fields.get? x = some (.thunk a)) (hx' : fields'.get? x = some (.thunk b)) :
    Option.Rel (Thunk.Renamed (definedAlike R g (fields, h₁) (fields', h₁'))) h₁.thunks[a]?
      h₁'.thunks[b]? := by
  have hboth := hd.counterparts hd' hr hn x
  have hstate := hd.pending _ (Table.mem_of_get? hx) a
  have hstate' := hd'.pending _ (Table.mem_of_get? hx') b
  rw [hx, hx'] at hboth
  obtain ⟨hnone, -⟩ | ⟨_, _, hv, hv', d, d', hdd, hm, hm'⟩ := rel_cases hboth
  · cases hnone
  cases hv
  cases hv'
  unfold Definition.Made at hm hm'
  rw [hdd.binding] at hm'
  cases hp : d.binding.params with
  | cons q qs =>
    simp only [hp] at hm
    cases hm
  | nil =>
    simp only [hp] at hm hm'
    obtain ⟨_, st, ha, ht⟩ := hm
    obtain ⟨_, st', hb, ht'⟩ := hm'
    cases ha
    cases hb
    obtain rfl : st = .pending := hstate _ rfl ht
    obtain rfl : st' = .pending := hstate' _ rfl ht'
    rw [ht, ht']
    refine .some ⟨⟨rfl, hdd.source, hdd.want⟩, rfl, ?_, .pending⟩
    rintro _ _ ⟨⟩
    exact hscope

theorem corresponds_thunks (hscope : g.scopes.size ≤ scope)
    (hsize : h₁'.thunks.size = h₁.thunks.size) :
    Corresponds (definedAlike R g (fields, h₁) (fields', h₁')).thunks
      (Thunk.Renamed (definedAlike R g (fields, h₁) (fields', h₁'))) h₁.thunks h₁'.thunks where
  size := hsize
  unique := oneToOne_definedAlike g hd hd' hsize
  later i hi := .inr ⟨rfl, hi⟩
  related := by
    rintro a b (⟨x, hx, hx'⟩ | ⟨rfl, hle⟩)
    · exact renamed_held hd hd' hr hn hscope hx hx'
    · simp only at hle
      rw [Array.getElem?_eq_none hle, Array.getElem?_eq_none (hsize ▸ hle)]
      exact .none

end

/-- Of the scopes in sight, the first has the builtin functions and the second the fields. -/
theorem corresponds_scopes {r : Renaming} {defs defs' : List Definition} {h : Heap}
    (hscope : r.scope = h.scopes.size) (hfields : ∀ x, Option.Rel (Value.Renamed r)
      ((defineModule defs h).1.get? x) ((defineModule defs' h).1.get? x)) :
    Corresponds (sameFrom r.scope) (Scope.Renamed r) (defineModule defs h).2.scopes
      (defineModule defs' h).2.scopes := by
  have hd := defined_defineModule defs h
  have hd' := defined_defineModule defs' h
  obtain ⟨-, -, hsize⟩ := sizes_defineModule defs h
  obtain ⟨-, -, hsize'⟩ := sizes_defineModule defs' h
  have hne : h.scopes.size ∉ [(newModuleScope h).1] := by simp [newModuleScope_fst]
  have hroot := hd.fills.scopes _ _ hne (root_newModuleScope h)
  have hroot' := hd'.fills.scopes _ _ hne (root_newModuleScope h)
  obtain ⟨vars, hvars, hget⟩ := hd.scope _ _ (scope_newModuleScope h)
  obtain ⟨vars', hvars', hget'⟩ := hd'.scope _ _ (scope_newModuleScope h)
  rw [newModuleScope_fst] at hvars hvars'
  refine ⟨hsize'.trans hsize.symm, oneToOne_sameFrom _, fun i hi => ⟨rfl, by rw [hscope]; omega⟩, ?_⟩
  rintro _ a ⟨rfl, hle⟩
  rw [hscope] at hle
  obtain rfl | rfl | hlt : a = h.scopes.size ∨ a = h.scopes.size + 1 ∨ h.scopes.size + 2 ≤ a := by
    omega
  · rw [hroot, hroot']
    refine .some ⟨fun x => ?_, rfl, nofun⟩
    generalize hx : Table.get? (Builtin.all.map fun b => (b.name, Value.builtin b)) x = o
    cases o with
    | none => exact .none
    | some v =>
      obtain ⟨b, -, he⟩ := List.mem_map.mp (Table.mem_of_get? hx)
      cases he
      exact .some (.builtin b)
  · rw [hvars, hvars']
    refine .some ⟨fun x => ?_, rfl, ?_⟩
    · simp only [hget, hget', Table.get?, Option.or_none]
      exact hfields x
    · rintro _ ⟨⟩
      exact Nat.le_of_eq hscope
  · rw [Array.getElem?_eq_none (hsize ▸ hlt), Array.getElem?_eq_none (hsize' ▸ hlt)]
    exact .none

/-- Definitions made in another order leave heaps that differ in names, and fields that stand for
each other. -/
theorem renamed_define {R : String → String → Prop} {defs defs' : List Definition}
    (hr : Reordered (Definition.Renamed R) defs defs') (hn : (defs.map (·.binding.name)).Nodup)
    (h : Heap) :
    ∃ r : Renaming, r.sources = R ∧ (defineModule defs h).2.Renamed r (defineModule defs' h).2 ∧
      ∀ x, Option.Rel (Value.Renamed r) ((defineModule defs h).1.get? x)
        ((defineModule defs' h).1.get? x) := by
  have hd := defined_defineModule defs h
  have hd' := defined_defineModule defs' h
  obtain ⟨hthunks, hcells, -⟩ := sizes_defineModule defs h
  obtain ⟨hthunks', hcells', -⟩ := sizes_defineModule defs' h
  have hsize : (defineModule defs' h).2.thunks.size = (defineModule defs h).2.thunks.size := by
    have hperm := hr.map_perm fun d d' hdd => hdd.binding.symm
    rw [hthunks, hthunks', hperm.countP_eq]
  have hscope : h.scopes.size ≤ (newModuleScope h).1 := by
    rw [newModuleScope_fst]
    exact Nat.le_succ _
  have hfields := renamed_fields hd hd' hr hn hscope
  refine ⟨_, rfl, ⟨corresponds_thunks hd hd' hr hn hscope hsize, ?_,
    corresponds_scopes rfl hfields⟩, hfields⟩
  -- no cell is in sight
  rw [hcells, hcells']
  refine ⟨rfl, oneToOne_sameFrom _, fun i hi => ⟨rfl, hi⟩, ?_⟩
  rintro _ a ⟨rfl, hle⟩
  rw [Array.getElem?_eq_none hle]
  exact .none

end Loader

end LazySession

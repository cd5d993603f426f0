import LazySession.Proofs.Eval.Slack
import LazySession.Proofs.Loader.Names
import LazySession.Proofs.Loader.Sharing
import Mathlib.Logic.Equiv.Basic

/-!
# Worlds that differ only in the order of things

Scopes may hold their names in another order, and fresh entries may have other numbers. Evaluation
cannot tell such heaps apart: `Heap.congruence_alike`. The numbers of entries are changed by a
permutation, and loaders with it: `World.Alike` and `Loader.rename`.
-/

namespace LazySession

/-! ## Heaps -/

/-- The same thunks, cells and scopes, each scope with the same names and values. -/
structure Heap.Alike (h h' : Heap) : Prop where
  thunks : h'.thunks = h.thunks
  cells : h'.cells = h.cells
  size : h'.scopes.size = h.scopes.size
  outer : ∀ id, h'.outer? id = h.outer? id
  vars : ∀ id x, (h'.vars id).get? x = (h.vars id).get? x

namespace Heap

theorem Alike.refl (h : Heap) : h.Alike h := ⟨rfl, rfl, rfl, fun _ => rfl, fun _ _ => rfl⟩

variable {h h' h'' : Heap}

theorem Alike.symm (a : h.Alike h') : h'.Alike h where
  thunks := a.thunks.symm
  cells := a.cells.symm
  size := a.size.symm
  outer id := (a.outer id).symm
  vars id x := (a.vars id x).symm

theorem Alike.trans (a : h.Alike h') (b : h'.Alike h'') : h.Alike h'' where
  thunks := b.thunks.trans a.thunks
  cells := b.cells.trans a.cells
  size := b.size.trans a.size
  outer id := (b.outer id).trans (a.outer id)
  vars id x := (b.vars id x).trans (a.vars id x)

theorem lookup_vars (h : Heap) (id : ScopeId) (x : String) :
    h.lookup id x = ((h.vars id).get? x).or
      ((h.outer? id).bind fun o => if o < id then h.lookup o x else none) := by
  rw [lookup, vars, outer?]
  cases h.scopes[id]? with
  | none => rfl
  | some s =>
    simp only [Option.map_some, Option.getD_some, Option.bind_some]
    cases s.vars.get? x <;> cases s.outer <;> rfl

theorem get?_vars_setVar (h : Heap) (scope : ScopeId) (name : String) (v : Value) (id : ScopeId)
    (x : String) : ((h.setVar scope name v).vars id).get? x =
      if scope = id ∧ id < h.scopes.size ∧ name = x then some v else (h.vars id).get? x := by
  simp only [vars, scopes_setVar]
  by_cases hid : scope = id
  · cases hs : h.scopes[id]? with
    | none =>
      have hlt := Nat.not_lt.mpr (Array.getElem?_eq_none_iff.mp hs)
      simp [hid, hlt]
    | some s =>
      have hlt := (Array.getElem?_eq_some_iff.mp hs).1
      simp [hid, hlt, Table.get?_put]
  · simp [hid]

theorem outer?_setVar (h : Heap) (scope : ScopeId) (name : String) (v : Value) (id : ScopeId) :
    (h.setVar scope name v).outer? id = h.outer? id := by
  simp only [outer?, scopes_setVar]
  split
  · cases h.scopes[id]? <;> rfl
  · rfl

theorem congruence_alike : Congruence Alike where
  thunks a := a.thunks
  cells a := a.cells
  scopes_size a := a.size
  lookup {h h'} a id name := by
    induction id using Nat.strongRecOn with
    | ind id ih =>
      rw [lookup_vars h', lookup_vars h, a.vars, a.outer]
      congr 1
      refine Option.bind_congr fun o _ => ?_
      split
      · exact ih o ‹_›
      · rfl
  newThunk a t := ⟨congrArg (·.push t) a.thunks, a.cells, a.size, a.outer, a.vars⟩
  setThunk a id state :=
    ⟨congrArg (·.modify id fun t => { t with state }) a.thunks, a.cells, a.size, a.outer, a.vars⟩
  newCell a v := ⟨a.thunks, congrArg (·.push v) a.cells, a.size, a.outer, a.vars⟩
  newScope {h h'} a vars outer := by
    have hscope : ∀ (g : Heap) id, (g.newScope vars outer).2.scopes[id]? =
        if id = g.scopes.size then some ⟨vars, outer⟩ else g.scopes[id]? := by
      intro g id
      simp [newScope, Array.getElem?_push]
    refine ⟨a.thunks, a.cells, by simp [newScope, a.size], fun id => ?_, fun id x => ?_⟩
    · simp only [outer?, hscope, a.size]
      split
      · rfl
      · exact a.outer id
    · simp only [Heap.vars, hscope, a.size]
      split
      · rfl
      · exact a.vars id x
  setVar {h h'} a id name v := by
    refine ⟨a.thunks, a.cells, by simp [setVar, a.size], fun j => ?_, fun j x => ?_⟩
    · rw [outer?_setVar, outer?_setVar, a.outer]
    · rw [get?_vars_setVar, get?_vars_setVar, a.size, a.vars]

end Heap

/-! ## Worlds -/

/-- The loader with other numbers for its entries. -/
def Loader.rename (π : Equiv.Perm EntryId) (l : Loader) : Loader :=
  ⟨l.modules.map fun p => (p.1, π p.2)⟩

/-- The same world up to the order in scopes, its entries having other numbers. -/
structure World.Alike (π : Equiv.Perm EntryId) (w w' : World) : Prop where
  heap : w.heap.Alike w'.heap
  size : w'.entries.size = w.entries.size
  entries : ∀ id, w'.entries[π id]? = w.entries[id]?
  fixed : ∀ id, w.entries.size ≤ id → π id = id
  instances : w'.instances = w.instances
  cache : w'.cache = w.cache
  context : w'.context = w.context

namespace World

variable {π ρ : Equiv.Perm EntryId} {w w' w'' : World}

theorem Alike.refl (w : World) : w.Alike (.refl _) w where
  heap := .refl _
  size := rfl
  entries _ := rfl
  fixed _ _ := rfl
  instances := rfl
  cache := rfl
  context := rfl

theorem Alike.symm (a : w.Alike π w') : w'.Alike π.symm w where
  heap := a.heap.symm
  size := a.size.symm
  entries id := by rw [← a.entries (π.symm id), Equiv.apply_symm_apply]
  fixed id h := by rw [Equiv.symm_apply_eq, a.fixed id (a.size ▸ h)]
  instances := a.instances.symm
  cache := a.cache.symm
  context := a.context.symm

theorem Alike.trans (a : w.Alike π w') (b : w'.Alike ρ w'') : w.Alike (π.trans ρ) w'' where
  heap := a.heap.trans b.heap
  size := b.size.trans a.size
  entries id := by rw [Equiv.trans_apply, b.entries, a.entries]
  fixed id h := by rw [Equiv.trans_apply, a.fixed id h, b.fixed id (a.size ▸ h)]
  instances := b.instances.trans a.instances
  cache := b.cache.trans a.cache
  context := b.context.trans a.context

theorem Alike.onHeap (a : w.Alike π w') {h h' : Heap} (ah : h.Alike h') :
    ({ w with heap := h } : World).Alike π { w' with heap := h' } :=
  ⟨ah, a.size, a.entries, a.fixed, a.instances, a.cache, a.context⟩

theorem Alike.onCache (a : w.Alike π w') (cache : Cache Parsed) :
    ({ w with cache } : World).Alike π { w' with cache } :=
  ⟨a.heap, a.size, a.entries, a.fixed, a.instances, rfl, a.context⟩

theorem Alike.onContext (a : w.Alike π w') (context : Context) :
    ({ w with context } : World).Alike π { w' with context } :=
  ⟨a.heap, a.size, a.entries, a.fixed, a.instances, a.cache, rfl⟩

end World

namespace Loader

theorem rename_refl (l : Loader) : l.rename (.refl _) = l := by
  simp [rename]

theorem rename_trans (π ρ : Equiv.Perm EntryId) (l : Loader) :
    l.rename (π.trans ρ) = (l.rename π).rename ρ := by
  simp [rename]

theorem names_rename (π : Equiv.Perm EntryId) (l : Loader) :
    (l.rename π).modules.names = l.modules.names := by
  simp [rename, Table.names]

theorem get?_rename (π : Equiv.Perm EntryId) (l : Loader) (name : String) :
    (l.rename π).modules.get? name = (l.modules.get? name).map π := by
  obtain ⟨modules⟩ := l
  simp only [rename]
  induction modules with
  | nil => rfl
  | cons p t ih =>
    simp only [List.map_cons, Table.get?]
    split
    · rfl
    · exact ih

theorem put_rename (π : Equiv.Perm EntryId) (l : Loader) (name : String) (id : EntryId) :
    (rename π ⟨l.modules.put name id⟩) = ⟨(l.rename π).modules.put name (π id)⟩ := by
  obtain ⟨modules⟩ := l
  simp only [rename, Loader.mk.injEq]
  induction modules with
  | nil => rfl
  | cons p t ih =>
    simp only [List.map_cons, Table.put]
    split
    · rfl
    · rw [List.map_cons, ih]

theorem Keyed.rename {π : Equiv.Perm EntryId} {l : Loader} {w w' : World} (hk : l.Keyed w)
    (a : w.Alike π w') : (l.rename π).Keyed w' := by
  refine ⟨?_, fun p hp => ?_⟩
  · rw [names_rename]
    exact hk.nodup
  · obtain ⟨q, hq, rfl⟩ := List.mem_map.mp hp
    obtain ⟨e, he, hn⟩ := hk.entry q hq
    exact ⟨e, (a.entries q.2).trans he, hn⟩

theorem code?_rename {π : Equiv.Perm EntryId} {w w' : World} (a : w.Alike π w') (l : Loader) :
    (l.rename π).code? w' = l.code? w := by
  funext name
  unfold code?
  rw [get?_rename]
  cases l.modules.get? name with
  | none => rfl
  | some id => exact congrArg (Option.map (·.code)) (a.entries id)

/-- Loaders that differ only in the numbers of their entries. -/
structure Same (π : Equiv.Perm EntryId) (s s' : Loader × World) : Prop where
  loader : s'.1 = s.1.rename π
  world : s.2.Alike π s'.2

theorem Same.refl (s : Loader × World) : Same (.refl _) s s :=
  ⟨(rename_refl s.1).symm, .refl s.2⟩

theorem Same.trans {π ρ : Equiv.Perm EntryId} {s s' s'' : Loader × World} (a : Same π s s')
    (b : Same ρ s' s'') : Same (π.trans ρ) s s'' :=
  ⟨by rw [b.loader, a.loader, rename_trans], a.world.trans b.world⟩

theorem Same.symm {π : Equiv.Perm EntryId} {s s' : Loader × World} (a : Same π s s') :
    Same π.symm s' s := by
  refine ⟨?_, a.world.symm⟩
  rw [a.loader, ← rename_trans, Equiv.self_trans_symm]
  exact (rename_refl s.1).symm

theorem Same.refresh {π : Equiv.Perm EntryId} {s s' : Loader × World} (a : Same π s s')
    (c : ModuleCode) : Same π (refresh s c) (refresh s' c) := by
  have hfixed : π s.2.entries.size = s.2.entries.size := a.world.fixed _ (Nat.le_refl _)
  have hsize : s'.2.entries.size = s.2.entries.size := a.world.size
  refine ⟨?_, a.world.heap, ?_, fun id => ?_, fun id h => ?_, a.world.instances, a.world.cache,
    a.world.context⟩
  · show (⟨s'.1.modules.put c.name s'.2.entries.size⟩ : Loader) = _
    rw [hsize, a.loader, Loader.refresh, put_rename, hfixed]
  · simp [Loader.refresh, hsize]
  · simp only [Loader.refresh, Array.getElem?_push, hsize]
    by_cases hid : id = s.2.entries.size
    · simp [hid, hfixed]
    · have hne : π id ≠ s.2.entries.size := fun he => hid (π.injective (he.trans hfixed.symm))
      rw [if_neg hne, if_neg hid, a.world.entries]
  · simp only [Loader.refresh, Array.size_push] at h
    exact a.world.fixed id (by omega)

theorem Same.foldl_refresh {π : Equiv.Perm EntryId} (cs : List ModuleCode) :
    ∀ {s s' : Loader × World}, Same π s s' →
      Same π (cs.foldl Loader.refresh s) (cs.foldl Loader.refresh s') := by
  induction cs with
  | nil => intro s s' a; exact a
  | cons c cs ih => intro s s' a; exact ih (a.refresh c)

theorem Same.extend {π : Equiv.Perm EntryId} {w w' : World} (a : w.Alike π w') (l : Loader)
    (mods : List ModuleCode) : Same π (l.extend mods w) ((l.rename π).extend mods w') := by
  unfold Loader.extend
  split
  · exact ⟨rfl, a⟩
  · have hstart : Same π (l, w) (l.rename π, w') := ⟨rfl, a⟩
    have hmods := hstart.foldl_refresh mods
    generalize mods.foldl Loader.refresh (l, w) = s at hmods ⊢
    generalize mods.foldl Loader.refresh (l.rename π, w') = s' at hmods ⊢
    have hcodes : s'.1.modules.filterMap (fun p => s'.2.entries[p.2]?.map (·.code)) =
        s.1.modules.filterMap fun p => s.2.entries[p.2]?.map (·.code) := by
      rw [hmods.loader, Loader.rename, List.filterMap_map]
      congr 1
      funext p
      exact congrArg (Option.map (·.code)) (hmods.world.entries p.2)
    simp only
    rw [hcodes]
    exact hmods.foldl_refresh _

end Loader

end LazySession

import LazySession.Proofs.Behind.History
import LazySession.Proofs.Behind.Injecting

/-!
# The loader of an expression

An expression is run with a loader of its own, with modules under new names: `World.Enlarged`. What is
done with a loader that was there leaves their entries alone: `World.Twin.enlarged`.
-/

namespace LazySession

/-! ## Worlds that are twins of themselves -/

namespace WorldPairing

/-- Everything that has a partner, as its own partner. -/
def diag (p : WorldPairing) : WorldPairing where
  heap := p.heap.diag
  entries a b := a = b ∧ ∃ c, p.entries a c
  instances a b := a = b ∧ ∃ c, p.instances a c

/-- Nothing has a partner but itself. -/
structure Diagonal (p : WorldPairing) : Prop where
  heap : p.heap.Diagonal
  entries : ∀ {a b}, p.entries a b → a = b
  instances : ∀ {a b}, p.instances a b → a = b

variable {p q : WorldPairing}

theorem diagonal_diag (p : WorldPairing) : p.diag.Diagonal := ⟨p.heap.diagonal_diag, And.left, And.left⟩

theorem Diagonal.within_diag (hp : p.Diagonal) (h : p.Within q) : p.Within q.diag :=
  ⟨hp.heap.within_diag h.heap, fun hab => ⟨hp.entries hab, _, h.entries hab⟩,
    fun hab => ⟨hp.instances hab, _, h.instances hab⟩⟩

end WorldPairing

/-- Nothing is kept apart. -/
def Apart.nothing : Apart where
  world := { cache := .disabled }
  thunks _ := False
  cells _ := False
  scopes _ := False
  entries _ := False
  instances _ := False

/-- Entries from `n` on are kept apart. -/
def Apart.since (n : EntryId) (w : World) : Apart :=
  { Apart.nothing with world := w, entries := fun id => n ≤ id ∧ id < w.entries.size }

theorem Instance.Twin.diag {p : WorldPairing} {i i' : Instance} (h : i.Twin p i') : i.Twin p.diag i :=
  ⟨rfl, forall₂_diag (fun _ _ hx => ⟨rfl, hx.2.diag⟩) h.fields⟩

theorem World.Twin.diag {o : Apart} {p : WorldPairing} {w w' : World} (h : w.Twin o p w') :
    w.Twin .nothing p.diag w where
  heap := h.heap.diag
  entries := by
    refine ⟨fun hx hy => by rw [hx.1, hy.1], ?_, fun hf => hf.elim⟩
    rintro a _ ⟨rfl, b, hab⟩
    obtain ⟨x, y, hx, -, hxy⟩ := h.entries.related hab
    exact ⟨x, x, hx, hx, rfl, rel_diag (fun _ _ hi => ⟨rfl, _, hi⟩) hxy.linked⟩
  instances := by
    refine ⟨fun hx hy => by rw [hx.1, hy.1], ?_, fun hf => hf.elim⟩
    rintro a _ ⟨rfl, b, hab⟩
    obtain ⟨x, y, hx, -, hxy⟩ := h.instances.related hab
    exact ⟨x, x, hx, hx, hxy.diag⟩
  context := rfl
  truthful := ⟨h.truthful.1, h.truthful.1⟩

/-! ## Further modules -/

/-- Further modules have come, none of which is linked. -/
structure World.Enlarged (w u : World) : Prop where
  heap : u.heap = w.heap
  instances : u.instances = w.instances
  context : u.context = w.context
  truthful : Interpreter.Truthful u.cache
  size : w.entries.size ≤ u.entries.size
  old : ∀ id < w.entries.size, u.entries[id]? = w.entries[id]?
  unlinked : ∀ (id : EntryId) e, w.entries.size ≤ id → u.entries[id]? = some e → e.linked = none

section
variable {w u u' : World} {p : WorldPairing} {l : Loader} {mods : List ModuleCode} {ls : List Loader}

theorem World.Twin.enlarged (h : w.Twin .nothing p w) (hu : w.Enlarged u) (hu' : w.Enlarged u') :
    u.Twin (.since w.entries.size u') p u' where
  heap := by
    rw [hu.heap, hu'.heap]
    exact ⟨⟨h.heap.thunks.unique, h.heap.thunks.related, fun hf => hf.elim⟩,
      ⟨h.heap.cells.unique, h.heap.cells.related, fun hf => hf.elim⟩,
      ⟨h.heap.scopes.unique, h.heap.scopes.related, fun hf => hf.elim⟩, h.heap.nested⟩
  entries := by
    refine ⟨h.entries.unique, fun {a b} hab => ?_, fun {b} hb => ⟨fun a hab => ?_, hb.2, rfl⟩⟩
    · obtain ⟨x, y, hx, hy, hxy⟩ := h.entries.related hab
      have hlt := h.entries.lt hab
      exact ⟨x, y, (hu.old a hlt.1).trans hx, (hu'.old b hlt.2).trans hy, hxy⟩
    · exact Nat.not_lt_of_le hb.1 (h.entries.lt hab).2
  instances := by
    rw [hu.instances, hu'.instances]
    exact ⟨h.instances.unique, h.instances.related, fun hf => hf.elim⟩
  context := hu'.context.trans hu.context.symm
  truthful := ⟨hu.truthful, hu'.truthful⟩

theorem World.Enlarged.keeps (h : w.Enlarged u) : w.Keeps [] u := by
  refine ⟨?_, fun i inst hi => by rw [h.instances, hi], fun id e he => ?_⟩
  · rw [h.heap]
    exact .refl _ _
  · exact ⟨e.linked, (h.old id (Array.getElem?_eq_some_iff.mp he).1).trans he, fun _ hi => hi⟩

namespace Loader

/-- The loader and the world with further modules. Names of modules that were there are not looked
for. -/
def enlarge (l : Loader) (mods : List ModuleCode) (w : World) : Loader × World :=
  mods.foldl refresh (l, w)

theorem enlarged_enlarge (hk : l.Keyed w) (mods : List ModuleCode) (hw : Interpreter.Truthful w.cache) :
    w.Enlarged (l.enlarge mods w).2 := by
  have hr := renews_refresh mods hk
  refine ⟨?_, ?_, ?_, ?_, hr.size, hr.old, hr.unlinked⟩ <;> unfold enlarge <;> rw [hr.world]
  exact hw

theorem get?_enlarge (hk : l.Keyed w) (hnew : ∀ c ∈ mods, l.code? w c.name = none) {n : String} {id : EntryId}
    (hn : l.modules.get? n = some id) : (l.enlarge mods w).1.modules.get? n = some id := by
  refine ((renews_refresh mods hk).kept n fun hm => ?_).trans hn
  obtain ⟨c, hc, rfl⟩ := List.mem_map.mp hm
  obtain ⟨e, he, -⟩ := hk.get? hn
  have hnone := hnew c hc
  simp [code?, hn, he] at hnone

theorem get?_enlarge_cases (hk : l.Keyed w) {n : String} {id : EntryId}
    (hn : (l.enlarge mods w).1.modules.get? n = some id) :
    l.modules.get? n = some id ∨ w.entries.size ≤ id := by
  have hr := renews_refresh mods hk
  by_cases hm : n ∈ mods.map (·.name)
  · obtain ⟨id', -, hid', hle, -⟩ := hr.new n hm
    obtain rfl := Option.some.inj (hn.symm.trans hid')
    exact .inr hle
  · exact .inl ((hr.kept n hm).symm.trans hn)

theorem coherent_enlarge (hc : Loader.Coherent [l] [] w) (hcomplete : ModuleCode.Complete (l.code? w))
    (hnew : ∀ c ∈ mods, l.code? w c.name = none) :
    Loader.Coherent [(l.enlarge mods w).1, l] [] (l.enlarge mods w).2 := by
  have hk := hc.keyed l (List.mem_singleton_self l)
  have hf := Family.coherent_extend hc (List.mem_singleton_self l) mods
  rw [extend_new hk hcomplete hnew] at hf
  exact hf

end Loader

end

end LazySession

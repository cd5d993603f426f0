import LazySession.Proofs.Session.Requests
import Mathlib.Data.List.Nodup

/-!
# Bound values in their cells

The prelude of a session is a module of cells, one for every bound name. `Session.injected_inject`:
unless there is too little depth or patience, each of them holds the bound value after the values
have been written.
-/

namespace LazySession

/-! ## The code of the prelude -/

namespace Template

theorem cell_inj {x y : String} (h : x ++ "Ref" = y ++ "Ref") : x = y :=
  (String.append_left_inj "Ref").mp h

/-- What the declarations of cells come to as a piece. -/
theorem DeclaresCells.piece {xs : List (String × String)} {decls : List Decl}
    (h : DeclaresCells xs decls) (source : String) :
    (⟨source, decls⟩ : Piece).bindings.map (·.name) = xs.map (·.1 ++ "Ref") ∧
      (∀ b ∈ (⟨source, decls⟩ : Piece).bindings, ∃ cell p q r, b = making cell p q r) ∧
      (⟨source, decls⟩ : Piece).imports = [] ∧
      ∀ pos names type, .signature pos names type ∈ decls → type.base? = none := by
  induction h with
  | nil => exact ⟨rfl, nofun, rfl, nofun⟩
  | cons _ hx _ ih =>
    obtain ⟨⟨p, q, type', -, rfl⟩, p₁, p₂, p₃, rfl⟩ := hx
    obtain ⟨hnames, hmaking, himports, hsigs⟩ := ih
    simp only [Piece.bindings, Piece.imports] at hnames hmaking himports ⊢
    refine ⟨?_, ?_, ?_, ?_⟩
    · simp only [List.filterMap_cons, Decl.binding?, List.map_cons, hnames]
      rfl
    · intro b hb
      simp only [List.filterMap_cons, Decl.binding?, List.mem_cons] at hb
      rcases hb with rfl | hb
      · exact ⟨_, _, _, _, rfl⟩
      · exact hmaking b hb
    · simpa using himports
    · intro pos names type hm
      simp only [List.mem_cons, Decl.signature.injEq, reduceCtorEq, false_or] at hm
      rcases hm with ⟨-, -, rfl⟩ | hm
      · rfl
      · exact hsigs _ _ _ hm

end Template

namespace Session

open Interpreter Template World

theorem scriptName_ne (history : History) (text : String) :
    preludeName ≠ scriptName history text := by
  intro h
  unfold scriptName at h
  simp only at h
  generalize Text.Digest.text _ = digest at h
  have hhead := congrArg (·.toList.head?) h
  simp only [String.toList_append, List.head?_append] at hhead
  exact absurd (hhead.trans (show _ = some 'I' from rfl)) (by decide)

/-- The prelude defines a cell for every name, and nothing else. -/
theorem IsPrelude.code {xs : List (String × String)} {c : ModuleCode}
    (h : IsPrelude (preludeText xs) c) (hxs : ∀ x ∈ xs, Declarable x)
    (hn : (xs.map (·.1)).Nodup) :
    c.exports = xs.map (·.1 ++ "Ref") ∧ c.DefinesCells := by
  obtain ⟨pos, decls, imported, hread, hcheck⟩ := h
  obtain ⟨-, pos', decls', hm, hcells⟩ := read_prelude hxs hread
  obtain ⟨rfl, rfl⟩ : pos = pos' ∧ decls = decls' := by
    have := Fragment.module.inj hm
    simp only [Module.mk.injEq] at this
    exact ⟨this.1, this.2.2⟩
  obtain ⟨hnames, hmaking, himports, hsigs⟩ := hcells.piece fragmentSource
  generalize hp : (⟨fragmentSource, decls⟩ : Piece) = p at *
  have hdecls : p.decls = decls := by rw [← hp]
  have hdefs : Program.definitions [p] = p.definitions := by
    rw [Program.definitions_of_nodup] <;> rw [List.flatMap_singleton]
    have : p.definitions.map (·.binding.name) = xs.map (·.1 ++ "Ref") := by
      rw [← hnames]
      simp [Piece.definitions]
    rw [this, show (fun x : String × String => x.1 ++ "Ref") = (· ++ "Ref") ∘ (·.1) from rfl,
      ← List.map_map]
    exact List.Nodup.map (fun _ _ => cell_inj) hn
  have hexports : c.exports = xs.map (·.1 ++ "Ref") := by
    rw [(Program.check_ok hcheck).1]
    simp only [ModuleCode.exports, hdefs, ← hnames]
    simp [Piece.definitions]
  refine ⟨hexports, ?_, ?_⟩
  · rw [(Program.check_ok hcheck).1]
    simp [Program.imports, himports]
  · intro d hd
    rw [(Program.check_ok hcheck).1, hdefs] at hd
    obtain ⟨b, hb, rfl⟩ := List.mem_map.mp hd
    obtain ⟨cell, q₁, q₂, q₃, rfl⟩ := hmaking b hb
    refine ⟨rfl, rfl, ?_, q₂, q₃, rfl⟩
    simp only [making, List.isEmpty_nil, if_true]
    refine Option.bind_eq_none_iff.mpr fun q hg => ?_
    obtain ⟨pos, type⟩ := q
    obtain ⟨names, -, hm⟩ := Piece.mem_signatures (Table.mem_of_get? hg)
    exact hsigs pos names type (hdecls ▸ hm)

theorem cells_declared (s : Session) :
    s.boundNames.map (· ++ "Ref") = s.declared.map (·.1 ++ "Ref") := by
  rw [← names_declared, List.map_map]
  rfl

/-- The prelude of the session is a module of cells for its names. -/
theorem Tended.prelude_code {s : Session} {w : World} (h : Tended s w) (hne : s.bindings ≠ [])
    (hxs : ∀ x ∈ s.declared, Declarable x) : ∃ prelude,
      s.loader.code? w preludeName = some prelude ∧
        prelude.exports = s.boundNames.map (· ++ "Ref") ∧ prelude.DefinesCells := by
  obtain ⟨prelude, hcode, hprelude⟩ := h.code hne
  rw [h.prelude] at hprelude
  obtain ⟨hexports, hcells⟩ := hprelude.code hxs (names_declared s ▸ h.nodup)
  exact ⟨prelude, hcode, hexports.trans (cells_declared s).symm, hcells⟩

theorem makesCells_of_names {c : ModuleCode} (h : c.DefinesCells) {names : List String}
    (hexports : c.exports = names.map (· ++ "Ref")) (hnew : "new" ∉ names) : c.MakesCells := by
  refine ⟨h, fun hm => ?_⟩
  rw [hexports] at hm
  obtain ⟨x, hx, he⟩ := List.mem_map.mp hm
  obtain rfl : x = "new" := cell_inj (he.trans rfl)
  exact hnew hx

/-! ## Loading the prelude -/

section
variable {ls : List Loader} {l : Loader} {w : World} {name : String} {code : ModuleCode}

theorem holds_load (hs : Sane ls w) (hl : l ∈ ls) (set : Setting) (name : String) :
    (l.load set name).Meets w (fun i w' => l.Holds w' name i) (fun _ _ => True) := by
  refine Act.meets_bind (Act.meets_inquire fun patience => ⟨?_, trivial⟩)
  have hc := (hs.of_eq hs.faithful { w.context with patience }).coherent
  exact (Loader.meets_link set hl _ [] name [] _ hc (by simp)).mono (fun _ _ h => h.2)
    fun _ _ _ => trivial

/-- The instance of a module of cells. -/
structure HoldsModule (l : Loader) (name : String) (code : ModuleCode) (i : Instance) (w : World) :
    Prop where
  held : l.instance? w name = some i
  cells : i.HoldsCells w.heap
  nodup : i.fields.names.Nodup
  names : ∀ x, x ∈ i.fields.names ↔ x ∈ code.exports

/-- A module of cells is loaded, unless for want of depth or patience. -/
theorem holdsModule_loadInstance (ws : Workshop) (hs : Sane ls w) (hl : l ∈ ls)
    (hcode : l.code? w name = some code) (hc : code.MakesCells) :
    (loadInstance ws l name).Meets w
      (fun i w' => HoldsModule l name code i w' ∧ Sane ls w' ∧ w.Keeps [] w' ∧
        Loader.LinksCells l name w w')
      (fun _ _ => ws.engine.setting.limit < 2 ∨ w.context.patience ≠ .endless) := by
  refine Act.meets_bind ((((tends_load hl ws.engine.setting name w).and
    (holds_load hs hl ws.engine.setting name)).and
    (Loader.linksCells_load ws.engine.setting hcode hc)).mono ?_ fun _ _ h => h.2)
  rintro i w' ⟨⟨htends, hholds⟩, hlinks⟩
  obtain ⟨hs', hk⟩ := htends hs
  obtain ⟨inst, hinst, hheld⟩ := hholds.instance? hs'.coherent hl
  obtain ⟨id, e, hid, he, hi⟩ := hholds
  have hcode' : e.code = code := by
    have hsame := Loader.code?_keeps (k := name) (hs.coherent.keyed l hl) hk
    rw [hcode] at hsame
    simpa [Loader.code?, hid, he] using hsame
  obtain ⟨inst', root, scope, hinst', -, -, hlinked⟩ := hs'.coherent.linked l hl name id e i hid he hi
  obtain ⟨-, inst'', hinst'', hcells⟩ := hs'.cells id e i he hi (hcode' ▸ hc.toDefinesCells)
  rw [hinst] at hinst' hinst''
  cases hinst'
  cases hinst''
  refine Act.meets_get_bind ?_
  rw [hinst]
  refine Act.meets_pure ⟨⟨hheld, hcells, hlinked.nodup, ?_⟩, hs', hk, hlinks⟩
  rw [← hcode']
  exact hlinked.names

end

/-! ## Writing the values -/

/-- The bound values are in their cells. -/
def Filled (i : Instance) (bs : Table Bound) (h : Heap) : Prop :=
  ∀ x b, (x, b) ∈ bs → ∃ v c, i.fields.get? (x ++ "Ref") = some v ∧
    Instance.cell? h v = some c ∧ h.getCell? c = some b.value.toValue

/-- Values have been written into the cells of the names in `bs`. -/
structure Writes (i : Instance) (bs : Table Bound) (w w' : World) : Prop where
  world : w' = { w with heap := { w.heap with cells := w'.heap.cells } }
  size : w'.heap.cells.size = w.heap.cells.size
  kept : ∀ c, (∀ x ∈ bs.names, ∀ v, i.fields.get? (x ++ "Ref") = some v →
    Instance.cell? w.heap v ≠ some c) → w'.heap.cells[c]? = w.heap.cells[c]?
  filled : Filled i bs w'.heap

theorem writes_injectAll (ip : Interpreter) {i : Instance} {bs : Table Bound}
    (hbs : bs.names.Nodup) : ∀ {w : World}, i.HoldsCells w.heap →
      (∀ x ∈ bs.names, x ++ "Ref" ∈ i.fields.names) →
      (injectAll ip.workshop i bs).Meets w (fun _ w' => Writes i bs w w') (fun _ _ => False) := by
  induction bs with
  | nil => exact fun _ _ => Act.meets_pure ⟨rfl, rfl, fun _ _ => rfl, nofun⟩
  | cons p bs ih =>
    obtain ⟨x, b⟩ := p
    intro w hcells hnames
    simp only [Table.names, List.map_cons, List.nodup_cons] at hbs
    obtain ⟨v, hv⟩ := Option.isSome_iff_exists.mp
      (Table.get?_isSome.mpr (hnames x (List.mem_map_of_mem List.mem_cons_self)))
    obtain ⟨c, hc, hlt⟩ := hcells.cell _ (Table.mem_of_get? hv)
    refine Act.meets_bind (Act.meets_during ?_)
    have hwrite : (i.write (ip.workshop.generator.cellName x) b.value).run w =
        (.ok ⟨⟩, { w with heap := w.heap.setCell c b.value.toValue }) := by
      have hv' : i.fields.get? (ip.workshop.generator.cellName x) = some v := hv
      unfold Instance.write
      simp only [hv', Act.run_bind, Act.run_get, hc]
      rfl
    refine Act.meets_of_run hwrite ?_
    refine (ih hbs.2 (w := { w with heap := w.heap.setCell c b.value.toValue })
      (hcells.setCell c b.value.toValue) fun y hy => hnames y (List.mem_cons_of_mem _ hy)).mono ?_
      fun _ _ h => h
    intro _ w' hw'
    -- the cell of `x` is none of those that are written after it
    have hkept : w'.heap.cells[c]? = some (some b.value.toValue) := by
      rw [hw'.kept c]
      · simp [Heap.setCell, hlt]
      · intro y hy u hu hcell
        have := hcells.apart _ (Table.mem_of_get? hv) _ (Table.mem_of_get? hu) c hc hcell
        rw [cell_inj this] at hbs
        exact hbs.1 hy
    refine ⟨by rw [hw'.world]; rfl, ?_, ?_, ?_⟩
    · rw [hw'.size]
      simp [Heap.setCell]
    · intro d hd
      have hne : c ≠ d := fun he => hd x (List.mem_map_of_mem List.mem_cons_self) v hv (he ▸ hc)
      rw [hw'.kept d fun y hy => hd y (List.mem_cons_of_mem _ hy)]
      simp [Heap.setCell, hne]
    · intro y b' hy
      rcases List.mem_cons.mp hy with he | hy
      · cases he
        refine ⟨v, c, hv, ?_, by simp [Heap.getCell?, hkept]⟩
        rw [hw'.world]
        exact hc
      · exact hw'.filled y b' hy

/-- The instance is that of the session's prelude, and the bound values are in its cells. -/
structure Injected (s : Session) (l : Loader) (i : Instance) (w : World) : Prop where
  held : l.instance? w preludeName = some i
  cells : i.HoldsCells w.heap
  nodup : i.fields.names.Nodup
  names : ∀ x, x ∈ i.fields.names ↔ x ∈ s.boundNames.map (· ++ "Ref")
  filled : Filled i s.bindings w.heap

/-- The bound values get into their cells, unless for want of depth or patience. -/
theorem injected_inject (ip : Interpreter) {ls : List Loader} {l : Loader} {w : World} {s : Session}
    {code : ModuleCode} (hs : Sane ls w) (hl : l ∈ ls) (hn : s.boundNames.Nodup)
    (hcode : l.code? w preludeName = some code) (hc : code.MakesCells)
    (hexports : code.exports = s.boundNames.map (· ++ "Ref")) :
    (inject ip.workshop s l).Meets w
      (fun _ w' => (∃ i, Injected s l i w') ∧ Sane ls w' ∧ w.Keeps [] w' ∧
        Loader.LinksCells l preludeName w w')
      (fun _ _ => ip.setting.limit < 2 ∨ w.context.patience ≠ .endless) := by
  refine Act.meets_bind (Act.meets_during ((holdsModule_loadInstance ip.workshop hs hl
    hcode hc).mono ?_ fun _ _ h => h))
  rintro i w₁ ⟨hi, hs₁, hk₁, hlinks⟩
  have hnames : ∀ x ∈ s.bindings.names, x ++ "Ref" ∈ i.fields.names := by
    intro x hx
    rw [hi.names, hexports]
    exact List.mem_map_of_mem hx
  refine ((writes_injectAll ip hn hi.cells hnames).and
    ((serves_tends ip.workshop hl).injectAll i s.bindings w₁)).mono ?_ fun _ _ h => h.1.elim
  rintro _ w₂ ⟨hw, htends⟩
  obtain ⟨hs₂, hk₂⟩ := htends hs₁
  refine ⟨⟨i, ?_, ?_, hi.nodup, fun x => by rw [hi.names, hexports], hw.filled⟩, hs₂,
    hk₁.trans hk₂, fun h => ?_, fun id hid => ?_⟩
  · exact Loader.instance?_keeps hi.held hk₂
  · have hcell : ∀ v, Instance.cell? w₂.heap v = Instance.cell? w₁.heap v := by
      intro v
      rw [hw.world]
      rfl
    refine ⟨fun p hp => ?_, fun p hp q hq c => ?_⟩
    · rw [hcell, hw.size]
      exact hi.cells.cell p hp
    · rw [hcell, hcell]
      exact hi.cells.apart p hp q hq c
  · rw [hw.world]
    exact hlinks.endless h
  · rw [hw.world]
    exact hlinks.entries id hid

end Session

end LazySession

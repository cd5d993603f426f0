import LazySession.Proofs.Session.Script

/-!
# Bound values come back

`Session.Bindings.evaluate_bound`: after any bindings to names that do not get in each other's way,
a bound name has the value that was last bound to it, unless that is not of the type the name was
bound with.
-/

namespace LazySession

namespace Session

open Interpreter Template World

/-- The names do not get in the way of each other, nor of what the generated source needs. -/
structure Hygienic (names : List String) : Prop where
  bindable : ∀ x ∈ names, isBindName x = true
  free : "read" ∉ names ∧ "new" ∉ names ∧ "readRef" ∉ names
  apart : ∀ x ∈ names, x ++ "Ref" ∉ names

/-! ## The names of a script -/

theorem not_qualified {x : String} (hx : x.toList.head? ≠ some 'E') (f : String) :
    x ≠ preludeName ++ "." ++ f := by
  rintro rfl
  simp only [String.toList_append, List.append_assoc, List.head?_append] at hx
  exact hx (by rfl)

theorem head_bindName {x : String} (h : isBindName x = true) (y : String) :
    (x ++ y).toList.head? ≠ some 'E' ∧ x ++ y ≠ resultField := by
  unfold isBindName at h
  split at h
  · cases h
  · rename_i c cs hc
    have hne : c ≠ 'E' ∧ c ≠ '$' := by
      constructor <;> rintro rfl <;> simp at h
    refine ⟨by simp [hc, hne.1], fun he => ?_⟩
    have := congrArg (·.toList.head?) he
    simp [hc, resultField, hne.2] at this

section
variable {xs : List (String × String)} {e : Expr} {code : ModuleCode} {inst : Instance}
variable {h h' : Heap} {fields : Table Value}

/-- The definitions of a script have been made behind the cells of the prelude. -/
structure Staged (xs : List (String × String)) (e : Expr) (inst : Instance) (scope : ScopeId)
    (fields : Table Value) (h : Heap) : Prop where
  readRef : h.lookup scope "readRef" = some (.builtin .readRef)
  cell : ∀ x ∈ xs, ∃ v, inst.fields.get? (x.1 ++ "Ref") = some v ∧
    h.lookup scope (x.1 ++ "Ref") = some v
  name : ∀ x ∈ xs, ∃ id t p q type, h.lookup scope x.1 = some (.thunk id) ∧
    h.thunks[id]? = some t ∧ t.state = .pending ∧
    t.code = some (.readsCell p q (x.1 ++ "Ref"), scope) ∧ TypeExpr.ofText? x.2 = some type ∧
    t.want = type.base?
  result : ∃ id t, fields.get? resultField = some (.thunk id) ∧ h.thunks[id]? = some t ∧
    t.state = .pending ∧ t.code = some (e, scope) ∧ t.want = none

/-- The thunk that a definition without parameters makes. -/
theorem thunk_of_made {scope : ScopeId} {defs : List Definition}
    (hd : Loader.Defined scope defs fields h h') {x : String} (hx : x ∈ defs.map (·.binding.name))
    (hp : ∀ d ∈ defs, d.binding.params = []) : ∃ d ∈ defs, d.binding.name = x ∧
      ∃ id t, fields.get? x = some (.thunk id) ∧ h'.thunks[id]? = some t ∧ t.state = .pending ∧
        t.code = some (d.binding.body, scope) ∧ t.want = d.want := by
  obtain ⟨v, hv⟩ := Option.isSome_iff_exists.mp (Table.get?_isSome.mpr ((hd.names x).mpr hx))
  have hmem := Table.mem_of_get? hv
  obtain ⟨d, hdm, hname, hm⟩ := hd.made _ hmem
  unfold Definition.Made at hm
  simp only [hp d hdm] at hm
  obtain ⟨id, state, rfl, ht⟩ := hm
  exact ⟨d, hdm, hname, id, _, hv, ht, hd.pending _ hmem id _ rfl ht, rfl, rfl⟩

theorem staged_define (hs : IsScript xs e code) (hh : Hygienic (xs.map (·.1)))
    (hn : (xs.map (·.1)).Nodup) (hinst : inst.fields.names.Nodup)
    (hnames : ∀ x, x ∈ inst.fields.names ↔ x ∈ xs.map (·.1 ++ "Ref"))
    (hd : Loader.Defined (Loader.newModuleScope h).1 code.defs fields
      (Loader.importFields (Loader.newModuleScope h).1 code.exports preludeName inst.fields
        (Loader.newModuleScope h).2) h') :
    Staged xs e inst (Loader.newModuleScope h).1 fields h' := by
  have hlookup := Loader.lookup_defined hd
  have hexports : code.defs.map (·.binding.name) = xs.map (·.1) ++ [resultField] := hs.exports
  have hparams : ∀ d ∈ code.defs, d.binding.params = [] := fun d hd => (hs.defs d hd).1
  -- a name that the script does not define is one of the prelude's, or builtin
  have hother : ∀ y, y.toList.head? ≠ some 'E' → y ∉ xs.map (·.1) → y ≠ resultField →
      h'.lookup (Loader.newModuleScope h).1 y =
        (inst.fields.get? y).or (Loader.builtins.get? y) := by
    intro y hhead hy hy'
    have hown : y ∉ code.exports := by
      rw [hs.exports]
      simp only [List.mem_append, List.mem_singleton, not_or]
      exact ⟨hy, hy'⟩
    have hnone : fields.get? y = none := Table.get?_eq_none.mpr fun hm => hown ((hd.names y).mp hm)
    rw [hlookup, hnone, Option.none_or,
      Loader.get?_importNames_plain hinst (not_qualified hhead), if_neg hown]
  refine ⟨?_, ?_, ?_, ?_⟩
  · have hnone : inst.fields.get? "readRef" = none := by
      rw [Table.get?_eq_none, hnames]
      intro hm
      obtain ⟨x, hx, he⟩ := List.mem_map.mp hm
      exact hh.free.1 (List.mem_map.mpr ⟨x, hx, cell_inj (he.trans rfl)⟩)
    rw [hother _ (by decide) hh.free.2.2 (by decide), hnone]
    rfl
  · intro x hx
    obtain ⟨hhead, hres⟩ := head_bindName (hh.bindable x.1 (List.mem_map_of_mem hx)) "Ref"
    obtain ⟨v, hv⟩ := Option.isSome_iff_exists.mp (Table.get?_isSome.mpr
      ((hnames (x.1 ++ "Ref")).mpr (List.mem_map.mpr ⟨x, hx, rfl⟩)))
    refine ⟨v, hv, ?_⟩
    rw [hother _ hhead (hh.apart x.1 (List.mem_map_of_mem hx)) hres, hv, Option.some_or]
  · intro x hx
    have hmem : x.1 ∈ code.defs.map (·.binding.name) := by
      rw [hexports]
      exact List.mem_append_left _ (List.mem_map_of_mem hx)
    obtain ⟨d, hdm, hname, id, t, hid, ht, hpending, hcode, hwant⟩ := thunk_of_made hd hmem hparams
    rcases (hs.defs d hdm).2.2 with ⟨y, hy, p, q, type, htype, hn', hbody, hw⟩ | ⟨hn', -⟩
    · obtain rfl : x = y := List.inj_on_of_nodup_map hn hx hy (hname.symm.trans hn')
      refine ⟨id, t, p, q, type, ?_, ht, hpending, hbody ▸ hcode, htype, hwant.trans hw⟩
      rw [hlookup, hid, Option.some_or, Option.some_or]
    · have := (head_bindName (hh.bindable x.1 (List.mem_map_of_mem hx)) "").2
      rw [String.append_empty, ← hname] at this
      exact absurd hn' this
  · have hmem : resultField ∈ code.defs.map (·.binding.name) := by
      rw [hexports]
      simp
    obtain ⟨d, hdm, hname, id, t, hid, ht, hpending, hcode, hwant⟩ := thunk_of_made hd hmem hparams
    rcases (hs.defs d hdm).2.2 with ⟨y, hy, p, q, type, htype, hn', -⟩ | ⟨-, hbody, hw⟩
    · have := (head_bindName (hh.bindable y.1 (List.mem_map_of_mem hy)) "").2
      rw [String.append_empty, ← hn'] at this
      exact absurd hname this
    · exact ⟨id, t, hid, ht, hpending, hbody ▸ hcode, hwant.trans hw⟩

/-! ## Its value -/

/-- The value is of the type, if that is one that values are checked against. -/
def Conforms (type : String) (v : Value) : Prop :=
  ∀ t want, TypeExpr.ofText? type = some t → t.base? = some want → v.conforms want = true

/-- The result of a script that is a bound name comes from the cell, unless there is too little depth
or it has to be of another type. -/
theorem force_staged (set : Setting) {s : EvalState} {scope : ScopeId} {x : String × String}
    {p : Pos} (hs : Staged xs (.var p x.1) inst scope fields s.heap) (hx : x ∈ xs)
    (hend : s.patience = .endless) {u v r : Value} {c : CellId}
    (hu : inst.fields.get? (x.1 ++ "Ref") = some u) (hc : Instance.cell? s.heap u = some c)
    (hv : s.heap.getCell? c = some v) (hr : fields.get? resultField = some r) :
    ((s.force set r).1 = .ok v ∧ 3 ≤ set.limit ∧ Conforms x.2 v) ∨
      ((∃ e, (s.force set r).1 = .error e) ∧ (set.limit < 3 ∨ ¬ Conforms x.2 v)) := by
  obtain ⟨id, t, hid, ht, hpending, hcode, hwant⟩ := hs.result
  rw [hr] at hid
  cases hid
  obtain ⟨ix, tx, q₁, q₂, type, hlookup, htx, hpx, hcx, htype, hwx⟩ := hs.name x hx
  obtain ⟨u', hu', hcell⟩ := hs.cell x hx
  rw [hu] at hu'
  cases hu'
  obtain ⟨i, rfl, hi⟩ := Instance.cell?_eq_some.mp hc
  have hne : id ≠ ix := by
    rintro rfl
    rw [ht] at htx
    cases htx
    rw [hcode] at hcx
    cases hcx
  have hnei : id ≠ i := by
    rintro rfl
    obtain ⟨t', ht', hdone⟩ := Heap.thunkValue?_eq_some.mp hi
    rw [ht] at ht'
    cases ht'
    rw [hpending] at hdone
    cases hdone
  have hconforms : Conforms x.2 v ↔ ∀ want, tx.want = some want → v.conforms want = true := by
    rw [hwx]
    refine ⟨fun h want => h type want htype, fun h type' want htype' => ?_⟩
    rw [htype] at htype'
    cases htype'
    exact h want
  have hd : s.demand (.thunk id) = .code id t (.var p x.1) scope := by
    simp [EvalState.demand, ht, hpending, hcode]
  have hscopes : ∀ y, (s.heap.setThunk id .forcing).lookup scope y = s.heap.lookup scope y :=
    fun y => Heap.lookup_setThunk _ _ _ _ y
  have htx' : (s.heap.setThunk id .forcing).thunks[ix]? = some tx := by
    simp only [Heap.setThunk, Array.getElem?_modify, if_neg hne, htx]
  have hi' : (s.heap.setThunk id .forcing).thunkValue? i = some (.cell c) := by
    rw [Heap.thunkValue?_setThunk hnei, hi]
  -- the result demands the name, and the name its cell: three levels
  suffices hthrough : Machine.Through set (fun _ => True) (Machine.Finishes fun r _ =>
      (r = .ok v ∧ 3 ≤ set.limit ∧ Conforms x.2 v) ∨
        (∃ e, r = .error e) ∧ (set.limit < 3 ∨ ¬ Conforms x.2 v))
      (Machine.demand set.limit (.thunk id) [] s) from hthrough.run
  unfold Machine.demand
  rw [hd]
  refine .eval trivial (fun hwhy err steps patience _ => ?_) fun d steps patience hdepth hpatience => ?_
  · have hzero : set.limit = 0 := hwhy.resolve_right fun h => h hend
    exact .throw trivial (.here ⟨_, _, rfl, .inr ⟨⟨err, rfl⟩, .inl (by omega)⟩⟩)
  obtain rfl := hpatience hend
  simp only [Machine.node, EvalState.startThunk, hscopes, hlookup]
  refine Machine.through_readsCell htx' hpx hcx rfl ((hscopes _).trans hs.readRef)
    ((hscopes _).trans hcell) hi' hv ?_ ?_
  · intro hdeep hok s' _ _
    refine .give trivial (.here ⟨_, _, rfl, .inl ⟨?_, by omega, hconforms.mpr hok⟩⟩)
    simp [hwant]
  · intro hwhy err s'
    refine .throw trivial (.here ⟨_, _, rfl, .inr ⟨⟨err, rfl⟩, hwhy.imp (by omega) ?_⟩⟩)
    rintro ⟨want, hw, hfail⟩ h
    rw [hconforms.mp h want hw] at hfail
    cases hfail

end

/-! ## Evaluating a bound name -/

section
variable {ip : Interpreter} {s : Session} {w : World}

theorem run_lock (h : w.context.closed = false) : lock.run w = (.ok (), w) := by
  simp only [lock, Act.run_bind, Act.run_get, h]
  rfl

theorem run_inquire_endless (h : w.context.patience = .endless) :
    Act.inquire.run w = (.ok (), w) := by
  obtain ⟨heap, entries, instances, cache, closed, patience⟩ := w
  obtain rfl : patience = .endless := h
  rfl

/-- The script of a bound name reads the cell of the prelude. -/
theorem read_bound {l : Loader} {xs : List (String × String)} {code : ModuleCode} {p : Pos}
    {x : String × String} {i : Instance} {b : Bound} {name : String} {id : EntryId}
    (hi : Injected s l i w) (hxs : s.boundNames = xs.map (·.1))
    (hcode : IsScript xs (.var p x.1) code) (hh : Hygienic (xs.map (·.1)))
    (hn : (xs.map (·.1)).Nodup) (hx : x ∈ xs) (hb : (x.1, b) ∈ s.bindings)
    (hid : l.modules.get? name = some id) (he : w.entries[id]? = some ⟨code, none⟩)
    (hne : preludeName ≠ name) (hend : w.context.patience = .endless) :
    (do
      let i ← loadInstance ip.workshop l name
      i.read ip.setting resultField).Meets w
      (fun r w' => (3 ≤ ip.setting.limit ∧ Conforms x.2 b.value.toValue) ∧
        r = w'.heap.toHost b.value.toValue)
      (fun _ _ => ip.setting.limit < 3 ∨ ¬ Conforms x.2 b.value.toValue) := by
  obtain ⟨fuel, hfuel⟩ : ∃ fuel, l.modules.length + 1 = fuel + 2 := by
    cases hm : l.modules with
    | nil =>
      rw [hm] at hid
      cases hid
    | cons _ ms => exact ⟨ms.length, rfl⟩
  obtain ⟨fields, h', hd, hlink⟩ := Loader.run_link_lazy ip.setting hid he rfl hcode.imports
    hi.held hne (fun d hd => (hcode.defs d hd).2.1) fuel
  have hnames : ∀ y, y ∈ i.fields.names ↔ y ∈ xs.map (·.1 ++ "Ref") := by
    intro y
    rw [hi.names, hxs, List.map_map]
    rfl
  have hstaged := staged_define hcode hh hn hi.nodup hnames hd
  -- linking leaves the cells as they were
  have hsettles := ((Loader.kept_settles ip.setting).holding_link l (fuel + 2) [] name).world w
  rw [hlink] at hsettles
  obtain ⟨u, c, hu, hc, hv⟩ := hi.filled x.1 b hb
  obtain ⟨r, hr⟩ : ∃ r, fields.get? resultField = some r := by
    obtain ⟨id, _, hid, _⟩ := hstaged.result
    exact ⟨_, hid⟩
  have hforce := force_staged ip.setting
    (s := Act.start 0 (Loader.setInstance { w with heap := h' } id ⟨name, fields⟩)) hstaged hx
    hend hu (Instance.cell?_settles hsettles hc) (hsettles.getCell? hv) hr
  refine Act.meets_bind (Act.meets_bind (Act.meets_bind
    (Act.meets_of_run (run_inquire_endless hend) ?_)))
  rw [hfuel]
  refine Act.meets_of_run hlink (Act.meets_get_bind ?_)
  have hinst : (Loader.setInstance { w with heap := h' } id ⟨name, fields⟩).instances[
      w.instances.size]? = some ⟨name, fields⟩ := by
    simp [Loader.setInstance]
  rw [hinst]
  refine Act.meets_pure (Act.meets_bind (Act.meets_of_run (run_inquire_endless hend) ?_))
  simp only [hr]
  refine Act.meets_bind (Act.meets_evaluate ?_)
  generalize EvalState.force ip.setting _ r = q at hforce
  obtain ⟨r, s'⟩ := q
  rcases hforce with ⟨hr, hconf⟩ | ⟨⟨e, hr⟩, hconf⟩ <;> obtain rfl : r = _ := hr
  · exact Act.meets_get_bind (Act.meets_pure ⟨hconf, rfl⟩)
  · exact hconf

/-- The program of the session has been made by its bindings alone. -/
def BoundOnly (s : Session) : Prop :=
  s.history.program = if s.bindings = [] then [] else
    (Template.generator {}).preludeImport :: s.declared.map configText

/-- A bound name is accepted, as a script. -/
theorem accepted_bound (ip : Interpreter) (h : Tended s w) (hp : BoundOnly s)
    (hxs : ∀ x ∈ s.declared, Legible x) {x : String × String} (hx : x ∈ s.declared)
    (hend : w.context.patience = .endless) :
    ∃ p code w', IsScript s.declared (.var p x.1) code ∧ code.name = scriptName s.history x.1 ∧
      Reads w w' ∧ (ip.run (.ours (programOf x.1)) s.history (some (.ours s.loader))).run w =
        (.ok (.accepted (.expression ⟨scriptName s.history x.1, resultField⟩)
          (s.loader.extend [code] w').1), (s.loader.extend [code] w').2) := by
  have hne : s.bindings ≠ [] := by
    rintro he
    rw [declared, he] at hx
    cases hx
  obtain ⟨prelude, hcode, hexports, -⟩ := h.prelude_code hne fun y hy => (hxs y hy).declarable
  obtain ⟨ps, hps, hdefines⟩ := pieces_program hxs
  obtain ⟨p, hread⟩ := read_name (hxs x hx).declarable.name (hxs x hx).ident fragmentSource
  have hres : resultField ∉ s.declared.map (·.1) := by
    rw [names_declared]
    exact fun hm => (head_bindName (h.names _ hm) "").2 (by decide)
  obtain ⟨code, hcheck, hname, hscript⟩ := isScript_check hdefines hxs
    (names_declared s ▸ h.nodup) hres hcode (hexports.trans (cells_declared s))
    (scriptName s.history x.1)
    (List.mem_map_of_mem hx) p
  have hprogram : pieces 0 s.history.program = (importPiece :: ps, []) := by
    rw [hp, if_neg hne, hps]
  have hknown : ∀ i ∈ Program.imports (scriptPieces ps (.var p x.1)),
      (s.loader.code? w i.2.2).isSome := by
    intro i hi
    rw [imports_scriptPieces fun q hq => ((definitions_names hdefines hxs).1 q hq).2,
      List.mem_singleton] at hi
    rw [hi, hcode]
    rfl
  obtain ⟨w', hr, hrun⟩ :=
    run_expression_known ip h.sane.faithful hend hread hprogram hknown hcheck
  exact ⟨p, code, w', hscript, hname, hr, hrun⟩

/-- The field of a bound name's script comes from the cell of the name. -/
theorem readField_bound {ls : List Loader} {l : Loader} {prelude code : ModuleCode} {p : Pos}
    {x name : String} {b : Bound} {id : EntryId} (hs : Sane ls w) (hl : l ∈ ls)
    (hn : s.boundNames.Nodup) (hh : Hygienic s.boundNames)
    (hprelude : l.code? w preludeName = some prelude) (hcells : prelude.MakesCells)
    (hexports : prelude.exports = s.boundNames.map (· ++ "Ref"))
    (hcode : IsScript s.declared (.var p x) code) (hb : (x, b) ∈ s.bindings)
    (hid : l.modules.get? name = some id) (he : w.entries[id]? = some ⟨code, none⟩)
    (hne : preludeName ≠ name) (hend : w.context.patience = .endless) :
    (readField ip.workshop s l name resultField).Meets w
      (fun r w' => (3 ≤ ip.setting.limit ∧ Conforms b.type b.value.toValue) ∧
        r = w'.heap.toHost b.value.toValue)
      (fun _ _ => ip.setting.limit < 3 ∨ ¬ Conforms b.type b.value.toValue) := by
  have hsome : (!s.bindings.isEmpty) = true := by
    cases hbs : s.bindings with
    | nil =>
      rw [hbs] at hb
      cases hb
    | cons _ _ => rfl
  unfold readField
  rw [if_pos hsome]
  refine Act.meets_bind ((injected_inject ip hs hl hn hprelude hcells hexports).mono ?_ ?_)
  · rintro _ w' ⟨⟨i, hi⟩, -, -, hlinks⟩
    have hother : l.modules.get? preludeName ≠ some id := by
      intro hsame
      obtain ⟨e₁, he₁, hn₁⟩ := (hs.coherent.keyed l hl).get? hid
      obtain ⟨e₂, he₂, hn₂⟩ := (hs.coherent.keyed l hl).get? hsame
      rw [he₁] at he₂
      cases he₂
      exact hne (hn₂.symm.trans hn₁)
    rw [← hlinks.entries id hother] at he
    exact read_bound (x := (x, b.type)) hi (names_declared s).symm hcode
      ((names_declared s).symm ▸ hh) ((names_declared s).symm ▸ hn)
      (List.mem_map.mpr ⟨_, hb, rfl⟩) hb hid he hne (hlinks.endless hend)
  · intro _ _ hwhy
    rcases hwhy with hwhy | hwhy
    · exact .inl (by omega)
    · exact absurd hend hwhy

theorem evaluate_declared (h : Tended s w) (hp : BoundOnly s)
    (hxs : ∀ x ∈ s.declared, Legible x) (hh : Hygienic s.boundNames) {x : String} {b : Bound}
    (hb : (x, b) ∈ s.bindings) (hopen : w.context.closed = false)
    (hend : w.context.patience = .endless) :
    (evaluate ip.workshop s x).Meets w
      (fun r w' => (3 ≤ ip.setting.limit ∧ Conforms b.type b.value.toValue) ∧
        r = (w'.heap.toHost b.value.toValue, s))
      (fun e _ => (ip.setting.limit < 3 ∨ ¬ Conforms b.type b.value.toValue) ∧
        ∃ artifact field cause, e = .evaluation artifact field cause) := by
  have hne : s.bindings ≠ [] := List.ne_nil_of_mem hb
  have hx : (x, b.type) ∈ s.declared := List.mem_map.mpr ⟨_, hb, rfl⟩
  obtain ⟨w₁, hr₁, hint⟩ := run_interpret h.sane.faithful x
  have h₁ := h.reads hr₁
  obtain ⟨p, code, w₂, hscript, hname, hr₂, hrun⟩ :=
    accepted_bound ip h₁ hp hxs hx (hr₁.endless hend)
  have h₂ := h₁.reads hr₂
  obtain ⟨prelude, hcode, hexports, hcells⟩ := h₂.prelude_code hne fun y hy => (hxs y hy).declarable
  have hsane := h₂.sane.extend (List.mem_singleton_self _) [code]
  obtain ⟨id, hid, hentry⟩ := entry_extend_last h₂.keyed [] code
  have hcode' : (s.loader.extend [code] w₂).1.code? (s.loader.extend [code] w₂).2 preludeName =
      s.loader.code? w₂ preludeName :=
    code?_extend_other h₂.keyed (by simpa [hname] using scriptName_ne s.history x)
  have hcontext := context_extend h₂.keyed [code]
  rw [hcode] at hcode'
  rw [hname] at hid
  simp only [List.nil_append] at hid hentry
  refine Act.meets_bind (Act.meets_of_run hint (Act.meets_bind
    (Act.meets_of_run (run_lock (hr₁.closed.trans hopen)) ?_)))
  refine Act.meets_bind (Act.meets_during (Act.meets_of_run hrun (Act.meets_bind ?_)))
  generalize s.loader.extend [code] w₂ = q at *
  obtain ⟨l, w₃⟩ := q
  simp only at hid hentry hcode' hsane hcontext ⊢
  have hartifact : ip.workshop.engine.artifactName ⟨scriptName s.history x, resultField⟩ l =
      .ok (scriptName s.history x) := by
    have hhas : l.modules.has (scriptName s.history x) = true := by simp [Table.has, hid]
    simp [Interpreter.workshop, Interpreter.engine, artifactName, hhas]
  unfold readSymbol
  rw [hartifact]
  refine Act.meets_tryCatch ((readField_bound hsane List.mem_cons_self h.nodup hh hcode'
    (makesCells_of_names hcells hexports hh.free.2.1) hexports hscript hb hid hentry (scriptName_ne s.history x)
    (by rw [hcontext]; exact (hr₁.trans hr₂).endless hend)).mono ?_ ?_)
  · rintro v w' ⟨hconf, rfl⟩
    exact Act.meets_pure ⟨hconf, rfl⟩
  · exact fun e _ hconf => Act.meets_throw ⟨hconf, _, _, _, rfl⟩

end

/-! ## Sequences of bindings -/

/-- The calls have been made one after the other on a fresh session, each with success. In between
there may have been requests that left the session as it was. -/
inductive Bindings (ip : Interpreter) (cache : Cache Parsed) :
    List (BindKey × HostValue) → Moment → Prop
  | start : Bindings ip cache [] (.start cache)
  | bind {calls : List (BindKey × HostValue)} {m : Moment} (h : Bindings ip cache calls m)
    (context : Context) (key : String) {k : BindKey} {v : HostValue}
    (hk : BindKey.ofText key = .ok k) (hb : m.succeeds ip context (.bind key v) = true) :
    Bindings ip cache (calls ++ [(k, v)]) (m.after ip context (.bind key v))
  | other {calls : List (BindKey × HostValue)} {m : Moment} (h : Bindings ip cache calls m)
    {context : Context} {r : Request} (hr : r.Spares)
    (hs : (m.after ip context r).session = m.session) :
    Bindings ip cache calls (m.after ip context r)

/-- The type that a name was first bound with. -/
def firstType (calls : List (BindKey × HostValue)) (x : String) : Option String :=
  (calls.find? (·.1.name == x)).map (·.1.type)

/-- The value that was last bound to a name. -/
def lastValue (calls : List (BindKey × HostValue)) (x : String) : Option HostValue :=
  (calls.reverse.find? (·.1.name == x)).map (·.2)

/-- The names that are bound are no keywords and do not get in each other's way, and their types can
be read. -/
structure HygienicCalls (calls : List (BindKey × HostValue)) : Prop where
  ident : ∀ c ∈ calls, TokenKind.ofWord c.1.name = .ident
  free : ∀ c ∈ calls, c.1.name ∉ ["read", "new", "readRef"]
  apart : ∀ c ∈ calls, ∀ d ∈ calls, c.1.name ≠ d.1.name ++ "Ref"
  typed : ∀ c ∈ calls, ∀ a, BindKey.annotation c.1 = some a → (TypeExpr.ofText? a).isSome

section
variable {ip : Interpreter} {cache : Cache Parsed} {calls : List (BindKey × HostValue)} {m : Moment}

/-- What the calls have made of the session. -/
structure Made (calls : List (BindKey × HostValue)) (s : Session) : Prop where
  only : BoundOnly s
  type : ∀ x, (s.bindings.get? x).map (·.type) = firstType calls x
  value : ∀ x, (s.bindings.get? x).map (·.value) = lastValue calls x

theorem program_prepend (h : History) (texts : List String) :
    (h.prepend texts).program = h.program ++ texts.reverse := by
  simp [History.program, History.prepend]

theorem firstType_snoc (k : BindKey) (v : HostValue) (x : String) :
    firstType (calls ++ [(k, v)]) x =
      (firstType calls x).or (if k.name = x then some k.type else none) := by
  unfold firstType
  rw [List.find?_append]
  cases calls.find? (·.1.name == x) with
  | some c => rfl
  | none =>
    by_cases hx : k.name = x
    · simp [hx]
    · simp [hx]

theorem lastValue_snoc (k : BindKey) (v : HostValue) (x : String) :
    lastValue (calls ++ [(k, v)]) x = if k.name = x then some v else lastValue calls x := by
  unfold lastValue
  rw [List.reverse_append, List.reverse_singleton, List.singleton_append]
  by_cases hx : k.name = x
  · simp [hx]
  · rw [List.find?_cons_of_neg (by simpa using hx), if_neg hx]

theorem Made.bindState {s next : Session} {k : BindKey} {v : HostValue} (h : Made calls s)
    (hb : bindState (Template.generator {}) s k v = .ok next) (hk : k.type ≠ "") :
    Made (calls ++ [(k, v)]) next := by
  rcases bindState_cases hb hk with ⟨old, hold, -, rfl⟩ | ⟨hnone, -, rfl⟩
  · refine ⟨?_, fun x => ?_, fun x => ?_⟩
    · have hne : s.bindings ≠ [] := fun he => by rw [he] at hold; cases hold
      have hne' : s.bindings.put k.name ⟨old.type, v⟩ ≠ [] := by
        intro he
        have := congrArg (Table.get? · k.name) he
        simp [Table.get?_put, Table.get?] at this
      have honly := h.only
      unfold BoundOnly declared at honly ⊢
      rw [if_neg hne] at honly
      rw [if_neg hne', declared_put hold]
      exact honly
    · have htype := h.type x
      rw [firstType_snoc, ← htype, Table.get?_put]
      split
      · rename_i hx
        rw [← hx, hold]
        rfl
      · simp
    · rw [lastValue_snoc, ← h.value, Table.get?_put]
      split <;> rfl
  · have hput := Table.put_of_not_has (a := ⟨k.type, v⟩) (by simp [Table.has, hnone] :
      s.bindings.has k.name = false)
    refine ⟨?_, fun x => ?_, fun x => ?_⟩
    · have honly := h.only
      unfold BoundOnly declared at honly ⊢
      rw [program_prepend, honly]
      by_cases hs : s.bindings = []
      · simp [hs]
      · simp [hs]
    · rw [firstType_snoc, ← h.type x, ← hput, Table.get?_put]
      split
      · rename_i hx
        rw [← hx, hnone]
        rfl
      · simp
    · rw [lastValue_snoc, ← h.value, ← hput, Table.get?_put]
      split <;> rfl

theorem Bindings.tended (hc : Faithful cache) (h : Bindings ip cache calls m) :
    m.Tended ∧ Made calls m.session := by
  induction h with
  | start => exact ⟨Moment.tended_start hc, rfl, fun _ => rfl, fun _ => rfl⟩
  | @bind _ m _ context key k v hk hb ih =>
    obtain ⟨ht, hmade⟩ := ih
    obtain ⟨k', hk', hreb⟩ := Moment.rebinds_of_succeeds ht hb
    obtain rfl := Except.ok.inj (hk.symm.trans hk')
    refine ⟨(ht.context context).rebinds (type_ne_empty hk) hreb, ?_⟩
    generalize m.after ip context (.bind key v) = m' at hreb ⊢
    obtain ⟨s, w⟩ := m'
    obtain ⟨hnext, -, -, -⟩ := hreb
    have hmade' := hmade.bindState hnext (type_ne_empty hk)
    exact ⟨hmade'.only, hmade'.type, hmade'.value⟩
  | other _ hr hs ih =>
    refine ⟨Moment.tended_after ih.1 _ hr, ?_⟩
    rw [hs]
    exact ih.2

theorem Made.call_of_declared {s : Session} (h : Made calls s) (hn : s.boundNames.Nodup)
    {x : String × String} (hx : x ∈ s.declared) :
    ∃ c ∈ calls, c.1.name = x.1 ∧ c.1.type = x.2 := by
  obtain ⟨⟨n, b⟩, hb, rfl⟩ := List.mem_map.mp hx
  have htype := h.type n
  rw [Table.get?_of_mem hn hb] at htype
  obtain ⟨c, hc, he⟩ := Option.map_eq_some_iff.mp htype.symm
  exact ⟨c, List.mem_of_find?_eq_some hc, by simpa using List.find?_some hc, he⟩

theorem HygienicCalls.names {s : Session} (hh : HygienicCalls calls) (h : Made calls s)
    (hd : Declares s) : Hygienic s.boundNames := by
  have hcall : ∀ x ∈ s.boundNames, ∃ c ∈ calls, c.1.name = x := by
    intro x hx
    rw [← names_declared] at hx
    obtain ⟨y, hy, rfl⟩ := List.mem_map.mp hx
    obtain ⟨c, hc, hn, -⟩ := h.call_of_declared hd.nodup hy
    exact ⟨c, hc, hn⟩
  have hfree : ∀ x ∈ ["read", "new", "readRef"], x ∉ s.boundNames := by
    intro x hx hm
    obtain ⟨c, hc, rfl⟩ := hcall x hm
    exact hh.free c hc hx
  refine ⟨hd.names, ⟨hfree _ (by simp), hfree _ (by simp), hfree _ (by simp)⟩, fun x hx hm => ?_⟩
  obtain ⟨c, hc, rfl⟩ := hcall x hx
  obtain ⟨d, hd, hn⟩ := hcall _ hm
  exact hh.apart d hd c hc hn

theorem HygienicCalls.legible {s : Session} {w : World} (hh : HygienicCalls calls)
    (h : Made calls s) (ht : Tended s w) : ∀ x ∈ s.declared, Legible x := by
  intro x hx
  have hne : s.bindings ≠ [] := by
    intro he
    rw [declared, he] at hx
    cases hx
  obtain ⟨prelude, -, hprelude⟩ := ht.code hne
  rw [ht.prelude] at hprelude
  refine hprelude.legible (fun y hy => ⟨?_, ?_⟩) (fun y hy => ?_) x hx
  · exact word_of_isBindName (ht.names _ (names_declared s ▸ List.mem_map_of_mem hy))
  · obtain ⟨c, hc, -, htype⟩ := h.call_of_declared ht.nodup hy
    rw [← htype]
    cases ha : BindKey.annotation c.1 with
    | none =>
      simp only [BindKey.type, ha, Option.getD_none]
      exact Option.isSome_iff_exists.mp (by decide +kernel)
    | some a =>
      simp only [BindKey.type, ha, Option.getD_some]
      exact Option.isSome_iff_exists.mp (hh.typed c hc a ha)
  · obtain ⟨c, hc, hn, -⟩ := h.call_of_declared ht.nodup hy
    rw [← hn]
    exact hh.ident c hc

theorem toHost_toValue {v : HostValue} (hv : ∀ u, v ≠ .object u) (h : Heap) :
    h.toHost v.toValue = v := by
  unfold Heap.toHost
  cases v with
  | nil => cases h.thunks.size <;> rfl
  | data d => cases h.thunks.size <;> rfl
  | object u => exact absurd rfl (hv u)

theorem Bindings.meets_evaluate (hc : Faithful cache) (h : Bindings ip cache calls m)
    (hh : HygienicCalls calls) {x type : String} {v : HostValue}
    (ht : firstType calls x = some type) (hv : lastValue calls x = some v) :
    (evaluate ip.workshop m.session x).Meets { m.world with context := {} }
      (fun r w' => (3 ≤ ip.setting.limit ∧ Conforms type v.toValue) ∧
        r = (w'.heap.toHost v.toValue, m.session))
      (fun e _ => (ip.setting.limit < 3 ∨ ¬ Conforms type v.toValue) ∧
        ∃ artifact field cause, e = .evaluation artifact field cause) := by
  obtain ⟨htended, hmade⟩ := h.tended hc
  have hb : m.session.bindings.get? x = some ⟨type, v⟩ := by
    have htype := hmade.type x
    have hvalue := hmade.value x
    rw [ht] at htype
    rw [hv] at hvalue
    obtain ⟨b, hb, rfl⟩ := Option.map_eq_some_iff.mp htype
    rw [hb] at hvalue ⊢
    cases hvalue
    rfl
  exact evaluate_declared (htended.context {}) hmade.only (hh.legible hmade htended)
    (hh.names hmade htended.toDeclares) (Table.mem_of_get? hb) rfl rfl

/-- A bound name has the value that was last bound to it. Only if that is not of the type that the
name was bound with, there is an error. -/
theorem Bindings.evaluate_bound (hc : Faithful cache) (hlimit : 3 ≤ ip.setting.limit)
    (h : Bindings ip cache calls m) (hh : HygienicCalls calls) {x type : String} {v : HostValue}
    (ht : firstType calls x = some type) (hv : lastValue calls x = some v) :
    (evaluate ip.workshop m.session x).Meets { m.world with context := {} }
      (fun r w' => Conforms type v.toValue ∧ r = (w'.heap.toHost v.toValue, m.session) ∧
        ((∀ u, v ≠ .object u) → r.1 = v))
      (fun e _ => ¬ Conforms type v.toValue ∧
        ∃ artifact field cause, e = .evaluation artifact field cause) := by
  refine (h.meets_evaluate hc hh ht hv).mono ?_ ?_
  · rintro r w' ⟨⟨-, hconf⟩, rfl⟩
    exact ⟨hconf, rfl, fun hv => toHost_toValue hv _⟩
  · rintro e _ ⟨hwhy, he⟩
    exact ⟨hwhy.resolve_left (by omega), he⟩

/-- A name is bound with a type, and then again. -/
theorem evaluate_bound_again : ∃ calls m, Bindings plain .disabled calls m ∧ HygienicCalls calls ∧
    lastValue calls "x" = some (.data (.ofInt 3)) ∧
    (evaluate plain.workshop m.session "x").Meets { m.world with context := {} }
      (fun r _ => r = (.data (.ofInt 3), m.session)) (fun _ _ => False) := by
  obtain ⟨m, h⟩ : ∃ m, Bindings plain .disabled [(⟨"x", some "Int"⟩, .data (.ofInt 1)),
      (⟨"x", none⟩, .data (.ofInt 3))] m :=
    ⟨_, .bind (.bind .start {} "x :: Int" (by cbv) (by decide +kernel)) {} "x" (by cbv)
      (by decide +kernel)⟩
  have hh : HygienicCalls [(⟨"x", some "Int"⟩, .data (.ofInt 1)),
      (⟨"x", none⟩, .data (.ofInt 3))] := by
    refine ⟨?_, ?_, ?_, ?_⟩
    · simp only [List.mem_cons, List.not_mem_nil, or_false, forall_eq_or_imp, forall_eq]
      decide
    · simp
    · simp only [List.mem_cons, List.not_mem_nil, or_false, forall_eq_or_imp, forall_eq]
      decide
    · simp only [List.mem_cons, List.not_mem_nil, or_false, forall_eq_or_imp, forall_eq,
        Option.some.injEq]
      exact ⟨fun a ha => ha ▸ (by decide +kernel), by rintro _ ⟨⟩⟩
  have hconf : Conforms "Int" (HostValue.data (.ofInt 3)).toValue := by
    have hbase : ((TypeExpr.ofText? "Int").bind TypeExpr.base?) = some .int := by decide +kernel
    intro t want ht hwant
    rw [ht, Option.bind_some, hwant] at hbase
    cases hbase
    rfl
  refine ⟨_, m, h, hh, rfl, (Bindings.evaluate_bound (faithful_empty rfl) (by decide) h hh
    (by rfl : firstType _ "x" = some "Int") rfl).mono ?_ fun e _ h => h.1 hconf⟩
  rintro ⟨v, s⟩ w' ⟨-, hr, hv⟩
  rw [show s = m.session from (Prod.mk.inj hr).2, show v = _ from hv (by rintro _ ⟨⟩)]

end

end Session

end LazySession

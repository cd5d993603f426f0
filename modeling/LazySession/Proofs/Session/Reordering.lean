import LazySession.Proofs.Interpreter.Acceptance
import LazySession.Proofs.Renaming.Module
import LazySession.Proofs.Session.Interference
import LazySession.Proofs.Session.Judged

/-!
# The order of independent definitions

Definitions that import nothing, have no strict bindings and bind different names may be put in any
order. `Interpreter.order_irrelevant`: an expression behind them has the same value, or comes to the
same error or the same diagnostics. Only the names under which the definitions were read tell the
orders apart.
-/

namespace LazySession

/-! ## Linking without imports -/

namespace Loader

/-- A module that has neither imports nor strict definitions is linked by making its definitions. -/
theorem run_link_alone (set : Setting) {l : Loader} {w : World} {name : String} {id : EntryId}
    {defs : List Definition} (hid : l.modules.get? name = some id)
    (he : w.entries[id]? = some ⟨⟨name, [], defs⟩, none⟩)
    (hlazy : ∀ d ∈ defs, d.binding.strict = false) (fuel : Nat) :
    (link set l (fuel + 1) [] name).run w = (.ok w.instances.size,
      setInstance { w with heap := (defineModule defs w.heap).2 } id
        ⟨name, (defineModule defs w.heap).1⟩) := by
  unfold link
  simp only [Act.run_bind, Act.run_get, hid, he, Option.bind_some, Option.map_some]
  rw [if_neg (by simp)]
  simp only [makeInstance_eq, Act.run_bind, Act.run_get, Act.run_set, linkImports, Act.run_pure,
    run_evalStrict_lazy _ _ _ hlazy]
  rfl

end Loader

/-- What reading a field comes to, once it has been asked whether to go on. -/
theorem Instance.run_read (set : Setting) {i : Instance} {field : String} {v : Value}
    (hv : i.fields.get? field = some v) (u : World) :
    (i.read set field).run u =
      if u.context.patience.inquire.1 then (.error .canceled, u.read u.cache)
      else
        let q := EvalState.force set (Act.start 0 (u.read u.cache)) v
        ((q.1.mapError .runtime).map q.2.heap.toHost, Act.finish (u.read u.cache) q.2) := by
  have hask : Act.inquire.run u = (if u.context.patience.inquire.1 then .error .canceled else .ok (),
    u.read u.cache) := Act.run_inquire u
  unfold Instance.read
  rw [Act.run_bind, hask]
  cases u.context.patience.inquire.1 with
  | true => rfl
  | false =>
    simp only [Bool.false_eq_true, if_false, hv, Act.run_bind, Act.run_evaluate]
    cases (EvalState.force set (Act.start 0 (u.read u.cache)) v).1 <;> rfl

namespace Interpreter

/-! ## What is compared -/

/-- Loads the artifact of a symbol and reads its field. -/
def readScript (ip : Interpreter) (l : Loader) (sym : Symbol) :
    Act (Except (List Diagnostic) HostValue) := do
  let i ← Session.loadInstance ip.workshop l sym.artifact
  return .ok (← i.read ip.setting sym.field)

/-- Runs a text against definitions and a loader, and reads its value if it is an expression. -/
def valueOf (ip : Interpreter) (history : History) (l : Loader) (text : String) :
    Act (Except (List Diagnostic) HostValue) := do
  let p ← interpret text
  match ← ip.run (.ours p) history (some (.ours l)) with
  | .rejected ds => return .error ds
  | .accepted (.expression sym) l => ip.readScript l sym
  | .accepted _ _ => return .ok .nil

/-- The declarations of a text that is a group of definitions. -/
def definitionsOf? (text : String) : Option (List Decl) :=
  match fragmentOf? text with
  | some (.definitions ds) => some ds
  | _ => none

theorem definitionsOf?_eq_some {t : String} {ds : List Decl} :
    definitionsOf? t = some ds ↔ fragmentOf? t = some (.definitions ds) := by
  unfold definitionsOf?
  split
  next ds' h => simp [h]
  next h => simpa using h ds

def boundNames (text : String) : List String :=
  (((definitionsOf? text).getD []).filterMap Decl.binding?).map (·.name)

/-- Groups of definitions without imports and strict bindings, of which no two bind the same name. -/
structure Independent (texts : List String) : Prop where
  definitions : ∀ t ∈ texts, ∃ ds ∈ definitionsOf? t, (∀ d ∈ ds, d.imported? = none) ∧
    ∀ d ∈ ds, ∀ b ∈ d.binding?, b.strict = false
  apart : texts.Pairwise fun t u => ∀ x ∈ boundNames t, x ∉ boundNames u

instance (texts : List String) : Decidable (Independent texts) :=
  decidable_of_iff ((∀ t ∈ texts, ∃ ds ∈ definitionsOf? t, (∀ d ∈ ds, d.imported? = none) ∧
    ∀ d ∈ ds, ∀ b ∈ d.binding?, b.strict = false) ∧
    texts.Pairwise fun t u => ∀ x ∈ boundNames t, x ∉ boundNames u)
    ⟨fun h => ⟨h.1, h.2⟩, fun h => ⟨h.definitions, h.apart⟩⟩

/-- Sources that stand for each other: the names of one text among the definitions of two histories,
or a source that is no such name. -/
def SameSource (history history' : History) (s s' : String) : Prop :=
  (s' = s ∧ ∀ n, s ≠ definitionSource n) ∨
    ∃ i j t, s = definitionSource i ∧ s' = definitionSource j ∧
      history.program[i]? = some t ∧ history'.program[j]? = some t

/-- The same value for the host. Objects of the language have the same type and the same text. -/
inductive SameValue (h h' : Heap) : HostValue → HostValue → Prop
  | nil : SameValue h h' .nil .nil
  | data (d : HostData) : SameValue h h' (.data d) (.data d)
  | object {v v' : Value} (htype : v'.typeName = v.typeName) (htext : h'.inspect v' = h.inspect v) :
    SameValue h h' (.object v) (.object v')

/-- The same outcome but for the names of sources and, in what is rejected, the order. -/
inductive SameOutcome (R : String → String → Prop) :
    Except Error (Except (List Diagnostic) HostValue) × World →
    Except Error (Except (List Diagnostic) HostValue) × World → Prop
  | rejected {ds ds' : List Diagnostic} {w w' : World}
    (h : Reordered (Diagnostic.Renamed R) ds ds') :
    SameOutcome R (.ok (.error ds), w) (.ok (.error ds'), w')
  | value {v v' : HostValue} {w w' : World} (h : SameValue w.heap w'.heap v v') :
    SameOutcome R (.ok (.ok v), w) (.ok (.ok v'), w')
  | failed {e e' : RuntimeError} {w w' : World} (h : e.Renamed R e') :
    SameOutcome R (.error (.runtime e), w) (.error (.runtime e'), w')
  | canceled {w w' : World} : SameOutcome R (.error .canceled, w) (.error .canceled, w')

/-! ## Reading -/

section
variable {R : String → String → Prop}

theorem sameValue_of_renamed {r : Renaming} {h h' : Heap} (hh : h.Renamed r h') {v v' : HostValue}
    (hv : v.Renamed r v') : SameValue h h' v v' := by
  cases hv with
  | nil => exact .nil
  | data d => exact .data d
  | object hv => exact .object hv.typeName (hh.inspect hv)

/-- The entry of the script in a loader, and its definitions. -/
structure HoldsScript (l : Loader) (w : World) (name : String) (defs : List Definition) : Prop where
  entry : ∃ id, l.modules.get? name = some id ∧ w.entries[id]? = some ⟨⟨name, [], defs⟩, none⟩
  lazily : ∀ d ∈ defs, d.binding.strict = false

/-- Two inquiries are made, before the script is loaded and before its result is evaluated. -/
theorem run_readScript (ip : Interpreter) {l : Loader} {w : World} {name : String}
    {defs : List Definition} (hs : HoldsScript l w name defs) {v : Value}
    (hv : (Loader.defineModule defs w.heap).1.get? resultField = some v) :
    ∃ u : World, u.heap = (Loader.defineModule defs w.heap).2 ∧
      u.context.patience = w.context.patience.inquire.2 ∧
      (ip.readScript l ⟨name, resultField⟩).run w =
        if w.context.patience.inquire.1 then (.error .canceled, w.read w.cache)
        else if u.context.patience.inquire.1 then (.error .canceled, u.read u.cache)
        else
          let q := EvalState.force ip.setting (Act.start 0 (u.read u.cache)) v
          ((q.1.mapError .runtime).map fun v => .ok (q.2.heap.toHost v),
            Act.finish (u.read u.cache) q.2) := by
  obtain ⟨id, hid, he⟩ := hs.entry
  have hlink := Loader.run_link_alone ip.setting hid (w := w.read w.cache) he hs.lazily
    l.modules.length
  generalize hu : Loader.setInstance { w.read w.cache with
    heap := (Loader.defineModule defs w.heap).2 } id
      ⟨name, (Loader.defineModule defs w.heap).1⟩ = u
  have hinst : u.instances[w.instances.size]? = some ⟨name, (Loader.defineModule defs w.heap).1⟩ := by
    rw [← hu]
    simp [Loader.setInstance, World.read]
  have hload : (l.load ip.workshop.engine.setting name).run w =
      if w.context.patience.inquire.1 then (.error .canceled, w.read w.cache)
      else (.ok w.instances.size, u) := by
    unfold Loader.load
    rw [Act.run_bind, Act.run_inquire]
    cases w.context.patience.inquire.1 with
    | true => rfl
    | false => exact hu ▸ hlink
  have hread := (⟨name, (Loader.defineModule defs w.heap).1⟩ : Instance).run_read ip.setting hv u
  refine ⟨u, by rw [← hu]; rfl, by rw [← hu]; rfl, ?_⟩
  unfold readScript Session.loadInstance
  rw [Act.run_bind, Act.run_bind, hload]
  cases w.context.patience.inquire.1 with
  | true => rfl
  | false =>
    simp only [Bool.false_eq_true, if_false, Act.run_bind, Act.run_get, hinst, Act.run_pure, hread]
    cases u.context.patience.inquire.1 with
    | true => rfl
    | false =>
      simp only [Bool.false_eq_true, if_false]
      cases (EvalState.force ip.setting (Act.start 0 (u.read u.cache)) v).1 <;> rfl

/-- The results of scripts whose definitions stand in another order, from worlds with the same heap
and the same patience. -/
theorem same_readScript (ip : Interpreter) {l l' : Loader} {w w' : World} {name name' : String}
    {defs defs' : List Definition} (hheap : w'.heap = w.heap) (hcontext : w'.context = w.context)
    (hs : HoldsScript l w name defs) (hs' : HoldsScript l' w' name' defs')
    (hr : Reordered (Definition.Renamed R) defs defs') (hn : (defs.map (·.binding.name)).Nodup)
    (hres : resultField ∈ defs.map (·.binding.name)) (hstart : R "" "") :
    SameOutcome R ((ip.readScript l ⟨name, resultField⟩).run w)
      ((ip.readScript l' ⟨name', resultField⟩).run w') := by
  obtain ⟨r, rfl, hheaps, hfields⟩ := Loader.renamed_define hr hn w.heap
  -- both modules have the result
  obtain ⟨hx, -⟩ | ⟨v, v', hx, hx', hv⟩ := rel_cases (hfields resultField)
  · rw [Table.get?_eq_none, (Loader.defined_defineModule defs w.heap).names] at hx
    exact absurd hres hx
  obtain ⟨u, hu, hpatience, hrun⟩ := run_readScript ip hs hx
  obtain ⟨u', hu', hpatience', hrun'⟩ := run_readScript ip hs' (hheap ▸ hx')
  rw [hcontext] at hpatience' hrun'
  rw [hrun, hrun', hpatience, hpatience']
  -- the inquiries before loading and before reading
  split
  · exact .canceled
  split
  · exact .canceled
  have hstate : (Act.start 0 (u.read u.cache)).Renamed r (Act.start 0 (u'.read u'.cache)) := by
    refine ⟨?_, ⟨hstart, rfl⟩, ?_⟩
    · change u.heap.Renamed r u'.heap
      rw [hu, hu', hheap]
      exact hheaps
    · simp only [Act.start, World.read, hpatience, hpatience']
  obtain ⟨hends, hfinal⟩ := EvalState.renamed_force ip.setting hstate hv
  generalize EvalState.force ip.setting (Act.start 0 (u.read u.cache)) v = q at hends hfinal
  generalize EvalState.force ip.setting (Act.start 0 (u'.read u'.cache)) v' = q' at hends hfinal
  obtain ⟨x, s⟩ := q
  obtain ⟨x', s'⟩ := q'
  cases hends with
  | ok hv => exact .value (sameValue_of_renamed hfinal.heap (hfinal.heap.toHost hv))
  | error he => exact .failed he

end

/-! ## Texts as pieces -/

theorem ofText_of_fragmentOf? {t : String} {f : Fragment} (h : fragmentOf? t = some f)
    (source : String) : Fragment.ofText source t = .ok f :=
  Fragment.ofText_source (fragmentOf?_eq_some.mp h) source

/-- The piece is that of a text in a list of definitions. -/
def StandsIn (all : List String) (t : String) (p : Piece) : Prop :=
  ∃ i ds, all[i]? = some t ∧ fragmentOf? t = some (.definitions ds) ∧ p = ⟨definitionSource i, ds⟩

theorem standsIn_pieces (texts : List String) : ∀ before : List String,
    (∀ t ∈ texts, ∃ ds, fragmentOf? t = some (.definitions ds)) →
    ∃ ps, pieces before.length texts = (ps, []) ∧
      List.Forall₂ (StandsIn (before ++ texts)) texts ps := by
  induction texts with
  | nil => exact fun before _ => ⟨[], rfl, .nil⟩
  | cons t texts ih =>
    intro before h
    rw [List.forall_mem_cons] at h
    obtain ⟨⟨ds, hds⟩, hrest⟩ := h
    obtain ⟨ps, hps, hall⟩ := ih (before ++ [t]) hrest
    rw [List.append_assoc, List.singleton_append] at hall
    rw [List.length_append, List.length_singleton] at hps
    refine ⟨⟨definitionSource before.length, ds⟩ :: ps, ?_,
      .cons ⟨before.length, ds, ?_, hds, rfl⟩ hall⟩
    · rw [pieces, ofText_of_fragmentOf? hds, hps]
    · simp

theorem reordered_of_perm {A B : String → Piece → Prop} {C : Piece → Piece → Prop}
    {texts texts' : List String} {ps ps' : List Piece} (hperm : texts.Perm texts')
    (h : List.Forall₂ A texts ps) (h' : List.Forall₂ B texts' ps')
    (hC : ∀ t p p', A t p → B t p' → C p p') : Reordered C ps ps' := by
  -- what belongs to the second list of texts is put in the order of the first
  obtain ⟨qs, hqs, hperm'⟩ := List.perm_comp_forall₂ hperm h'
  refine Reordered.perm_right ?_ hperm'
  clear hperm hperm' h'
  induction h generalizing qs with
  | nil =>
    cases hqs
    exact .zero
  | cons hp _ ih =>
    cases hqs with
    | cons hq hqs => exact .cons (hC _ _ _ hp hq) (ih _ hqs)

section
variable {history history' : History}

theorem bound_pieces {all texts : List String} {ps : List Piece}
    (h : List.Forall₂ (StandsIn all) texts ps) : ps.map Piece.bound = texts.map boundNames := by
  induction h with
  | nil => rfl
  | cons hp _ ih =>
    obtain ⟨i, ds, -, hds, rfl⟩ := hp
    rw [List.map_cons, List.map_cons, ih, boundNames, definitionsOf?_eq_some.mpr hds]
    rfl

theorem mem_pieces {all texts : List String} {ps : List Piece}
    (h : List.Forall₂ (StandsIn all) texts ps) : ∀ p ∈ ps, ∃ t ∈ texts, StandsIn all t p := by
  induction h with
  | nil => nofun
  | cons hp _ ih =>
    rw [List.forall_mem_cons]
    refine ⟨⟨_, List.mem_cons_self, hp⟩, fun q hq => ?_⟩
    obtain ⟨t, ht, hq⟩ := ih q hq
    exact ⟨t, List.mem_cons_of_mem _ ht, hq⟩

/-- Independent definitions are pieces that bind different names, import nothing and have no strict
bindings. -/
theorem Independent.pieces (h : Independent history.program) :
    ∃ ps, pieces 0 history.program = (ps, []) ∧
      List.Forall₂ (StandsIn history.program) history.program ps ∧ Program.BoundApart ps ∧
      ∀ p ∈ ps, p.decls.filterMap Decl.imported? = [] ∧ ∀ b ∈ p.bindings, b.strict = false := by
  obtain ⟨ps, hps, hall⟩ := standsIn_pieces history.program [] fun t ht =>
    (h.definitions t ht).imp fun _ hds => definitionsOf?_eq_some.mp hds.1
  rw [List.nil_append] at hall
  refine ⟨ps, hps, hall, ?_, fun p hp => ?_⟩
  · have hpair : (history.program.map boundNames).Pairwise List.Disjoint :=
      List.pairwise_map.mpr (h.apart.imp fun hxy x hx hx' => hxy x hx hx')
    rw [← bound_pieces hall] at hpair
    exact List.pairwise_map.mp hpair
  · obtain ⟨t, ht, i, ds, -, hds, rfl⟩ := mem_pieces hall p hp
    obtain ⟨ds', hds', himports, hstrict⟩ := h.definitions t ht
    obtain rfl : ds = ds' :=
      Option.some.inj ((definitionsOf?_eq_some.mpr hds).symm.trans hds')
    refine ⟨List.filterMap_eq_nil_iff.mpr himports, fun b hb => ?_⟩
    obtain ⟨d, hd, hdb⟩ := List.mem_filterMap.mp hb
    exact hstrict d hd b hdb

theorem Independent.perm {texts texts' : List String} (h : Independent texts)
    (hperm : texts.Perm texts') : Independent texts' where
  definitions t ht := h.definitions t (hperm.mem_iff.mpr ht)
  apart := hperm.pairwise h.apart fun hxy x hx hx' => hxy x hx' hx

theorem imports_script {ps : List Piece} (hi : ∀ p ∈ ps, p.decls.filterMap Decl.imported? = [])
    (e : Expr) : ∀ p ∈ ps ++ [Session.resultPiece e], p.decls.filterMap Decl.imported? = [] := by
  rw [List.forall_mem_append, List.forall_mem_singleton]
  exact ⟨hi, rfl⟩

theorem verdict_expression (ip : Interpreter) (known : String → Option ModuleCode) {text : String}
    {e : Expr} {ps : List Piece} (htext : fragmentOf? text = some (.expression e))
    (hps : Interpreter.pieces 0 history.program = (ps, []))
    (hi : ∀ p ∈ ps, p.decls.filterMap Decl.imported? = []) :
    ip.verdict known history text =
      (Program.check (scriptName history text) (ps ++ [Session.resultPiece e]) []).map
        fun code => (.expression ⟨scriptName history text, resultField⟩, [code]) := by
  have himports : Program.imports (ps ++ [⟨fragmentSource, [.binding (resultBinding e)]⟩]) = [] :=
    Program.imports_eq_nil (imports_script hi e)
  unfold verdict compiledBehind compiled compile
  rw [ofText_of_fragmentOf? htext fragmentSource]
  simp only [hps, himports]
  change Except.map _ (Except.map _ (Program.check _ (ps ++ [Session.resultPiece e]) [])) = _
  cases Program.check (scriptName history text) (ps ++ [Session.resultPiece e]) [] <;> rfl

/-- What is to be said of an expression behind independent definitions, in two orders. -/
theorem verdict_reordered (ip : Interpreter) (known : String → Option ModuleCode)
    (hperm : history.program.Perm history'.program) (hind : Independent history.program)
    {text : String} {e : Expr} (htext : fragmentOf? text = some (.expression e)) :
    (∃ ds ds', ip.verdict known history text = .error ds ∧
      ip.verdict known history' text = .error ds' ∧
      Reordered (Diagnostic.Renamed (SameSource history history')) ds ds') ∨
    ∃ defs defs', ip.verdict known history text = .ok (.expression ⟨scriptName history text,
        resultField⟩, [⟨scriptName history text, [], defs⟩]) ∧
      ip.verdict known history' text = .ok (.expression ⟨scriptName history' text,
        resultField⟩, [⟨scriptName history' text, [], defs'⟩]) ∧
      Reordered (Definition.Renamed (SameSource history history')) defs defs' ∧
      (defs.map (·.binding.name)).Nodup ∧ (∀ d ∈ defs, d.binding.strict = false) ∧
      resultField ∈ defs.map (·.binding.name) := by
  obtain ⟨ps, hps, hall, hapart, hlazy⟩ := hind.pieces
  obtain ⟨ps', hps', hall', -, hlazy'⟩ := (hind.perm hperm).pieces
  have hfragment : SameSource history history' fragmentSource fragmentSource :=
    .inl ⟨rfl, definitionSource_ne (.inr rfl)⟩
  have hpieces : Reordered (Piece.Renamed (SameSource history history')) ps ps' := by
    refine reordered_of_perm hperm hall hall' ?_
    rintro t _ _ ⟨i, ds, hi, hds, rfl⟩ ⟨j, ds', hj, hds', rfl⟩
    obtain rfl : ds = ds' := Fragment.definitions.inj (Option.some.inj (hds.symm.trans hds'))
    exact ⟨.inr ⟨i, j, t, rfl, rfl, hi, hj⟩, rfl⟩
  have hresult : (Session.resultPiece e).definitions = [⟨resultBinding e, fragmentSource, none⟩] :=
    rfl
  rw [verdict_expression ip known htext hps fun p hp => (hlazy p hp).1,
    verdict_expression ip known htext hps' fun p hp => (hlazy' p hp).1]
  have himports := imports_script (fun p hp => (hlazy p hp).1) e
  obtain ⟨ds, ds', hc, hc', hds⟩ | ⟨hc, hc'⟩ := Program.reordered_check hapart hpieces hresult
    hfragment himports (scriptName history text) (scriptName history' text)
  · refine .inl ⟨ds, ds', ?_, ?_, hds⟩
    · rw [hc]
      rfl
    · rw [hc']
      rfl
  · refine .inr ⟨_, _, by rw [hc]; rfl, by rw [hc']; rfl,
      Program.reordered_definitions_snoc hapart hpieces hresult hfragment,
      Program.nodup_definitions _, fun d hd => ?_, ?_⟩
    · obtain ⟨p, hp, hd⟩ := Program.mem_definitions hd
      obtain ⟨b, hb, rfl⟩ := List.mem_map.mp hd
      rcases List.mem_append.mp hp with hp | hp
      · exact (hlazy p hp).2 b hb
      · rw [List.mem_singleton.mp hp] at hb
        rw [List.mem_singleton.mp hb]
        rfl
    · rw [Program.definitions_snoc ps hresult, List.map_append]
      exact List.mem_append_right _ List.mem_cons_self

theorem holdsScript_extend {l : Loader} {w : World} (hk : l.Keyed w) (name : String)
    {defs : List Definition} (hlazy : ∀ d ∈ defs, d.binding.strict = false) :
    HoldsScript (l.extend [⟨name, [], defs⟩] w).1 (l.extend [⟨name, [], defs⟩] w).2 name defs :=
  ⟨Session.entry_extend_last hk [] ⟨name, [], defs⟩, hlazy⟩

/-- **The order of independent definitions is irrelevant.** An expression run and read behind them in
two orders has the same value in both, or is rejected in both with the same diagnostics in some order,
or fails in both with the same error. Sources differ only as far as they number the definitions. The
loader is any that belongs to the world, and the cache may hold anything that was read. -/
theorem order_irrelevant (ip : Interpreter) {l : Loader} {w : World} (hk : l.Keyed w)
    (hw : Truthful w.cache) (hperm : history.predefs.Perm history'.predefs)
    (hind : Independent history.predefs) {text : String} {e : Expr}
    (htext : fragmentOf? text = some (.expression e)) :
    SameOutcome (SameSource history history') ((ip.valueOf history l text).run w)
      ((ip.valueOf history' l text).run w) := by
  have hprogram : history.program.Perm history'.program :=
    ((List.reverse_perm _).trans hperm).trans (List.reverse_perm _).symm
  obtain ⟨cache, hcache, hread⟩ := truthful_interpret hw text
  obtain ⟨c, -, hrun⟩ := run_eq ip text history l (w := { w with cache }) hcache
  obtain ⟨c', -, hrun'⟩ := run_eq ip text history' l (w := { w with cache }) hcache
  have hkeyed : ∀ c, l.Keyed (World.read { w with cache } c) := fun _ => ⟨hk.nodup, hk.entry⟩
  -- what is read of the text does not depend on the history, nor does the first inquiry
  unfold valueOf
  rw [Act.run_bind, Act.run_bind, hread]
  simp only [Act.run_bind, hrun, hrun']
  cases w.context.patience.inquire.1 with
  | true => exact .canceled
  | false => ?_
  simp only [Bool.false_eq_true, if_false]
  obtain ⟨ds, ds', hv, hv', hds⟩ | ⟨defs, defs', hv, hv', hdefs, hn, hlazy, hres⟩ :=
    verdict_reordered ip (l.code? { w with cache }) hprogram
      (hind.perm (List.reverse_perm _).symm) htext
  · simp only [hv, hv']
    exact .rejected hds
  · have hlazy' : ∀ d' ∈ defs', d'.binding.strict = false := by
      intro d' hd'
      obtain ⟨d, hd, hdd⟩ := hdefs.mem_right hd'
      rw [hdd.binding]
      exact hlazy d hd
    simp only [hv, hv']
    refine same_readScript ip ?_ ?_ (holdsScript_extend (hkeyed c) _ hlazy)
      (holdsScript_extend (hkeyed c') _ hlazy') hdefs hn hres
      (.inl ⟨rfl, definitionSource_ne (.inl rfl)⟩)
    · rw [Session.heap_extend (hkeyed c), Session.heap_extend (hkeyed c')]
      rfl
    · rw [Session.context_extend (hkeyed c), Session.context_extend (hkeyed c')]
      rfl

/-- Definitions that need each other, behind which a number is tested. -/
theorem order_irrelevant_mutual :
    let ip : Interpreter := ⟨⟨[], ".mhs", []⟩, ⟨.empty, 100⟩⟩
    let even := "even n = if n == 0 then True else odd (n - 1)"
    let odd := "odd n = if n == 0 then False else even (n - 1)"
    let outcome := fun history => (ip.valueOf history .empty "even 3").run { cache := .disabled }
    SameOutcome (SameSource ⟨[even, odd]⟩ ⟨[odd, even]⟩) (outcome ⟨[even, odd]⟩)
      (outcome ⟨[odd, even]⟩) ∧
    ((outcome ⟨[even, odd]⟩).1.toOption.bind Except.toOption).map
      (fun v => (outcome ⟨[even, odd]⟩).2.heap.inspect v.toValue) = some "false" := by
  intro ip even odd outcome
  have hkind : (fragmentOf? "even 3").map Fragment.kind = some "expression" := by
    decide +kernel
  obtain ⟨e, he⟩ : ∃ e, fragmentOf? "even 3" = some (.expression e) := by
    obtain ⟨f, hf, hkind⟩ := Option.map_eq_some_iff.mp hkind
    cases f with
    | definitions ds => exact absurd hkind (by simp [Fragment.kind])
    | expression e => exact ⟨e, hf⟩
    | module m => exact absurd hkind (by simp [Fragment.kind])
  have hind : Independent [even, odd] := by
    decide +kernel
  refine ⟨order_irrelevant ip (Loader.keyed_empty _) (truthful_empty rfl) (.swap ..) hind he, ?_⟩
  decide +kernel

end

end Interpreter

end LazySession

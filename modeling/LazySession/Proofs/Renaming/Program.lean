import LazySession.Proofs.Scope.WellFormed
import Mathlib.Data.Multiset.Bind
import Mathlib.Data.Multiset.Filter

/-!
# Programs in another order

Pieces may stand in another order, each under another name. If no two of them bind the same name and
nothing is imported, the checks say the same of them but for the order and the names of the sources,
and what passes has the same definitions in another order: `Program.reordered_check`.
-/

namespace LazySession

/-- Declarations under another name. -/
structure Piece.Renamed (R : String → String → Prop) (p p' : Piece) : Prop where
  source : R p.source p'.source
  decls : p'.decls = p.decls

structure Definition.Renamed (R : String → String → Prop) (d d' : Definition) : Prop where
  source : R d.source d'.source
  binding : d'.binding = d.binding
  want : d'.want = d.want

structure Diagnostic.Renamed (R : String → String → Prop) (d d' : Diagnostic) : Prop where
  source : R d.source d'.source
  pos : d'.pos = d.pos
  complaint : d'.complaint = d.complaint

/-- A definition from another source. -/
def Definition.under (source : String) (d : Definition) : Definition := { d with source }

/-- The same things in another order, each related to its counterpart. -/
abbrev Reordered {α : Type} (R : α → α → Prop) (xs ys : List α) : Prop :=
  Multiset.Rel R (xs : Multiset α) (ys : Multiset α)

namespace Reordered

variable {α β : Type} {R : α → α → Prop} {S : β → β → Prop} {xs ys xs' ys' : List α}

theorem append (h : Reordered R xs ys) (h' : Reordered R xs' ys') :
    Reordered R (xs ++ xs') (ys ++ ys') := by
  have hadd := h.add h'
  rwa [Multiset.coe_add, Multiset.coe_add] at hadd

theorem flatMap {f g : α → List β} (h : Reordered R xs ys)
    (hfg : ∀ a b, R a b → Reordered S (f a) (g b)) : Reordered S (xs.flatMap f) (ys.flatMap g) := by
  have hlift : Relator.LiftFun R (Multiset.Rel S) (fun a => (f a : Multiset β))
      fun b => (g b : Multiset β) := fun a b hab => hfg a b hab
  have hbind := Multiset.rel_bind hlift h
  rwa [Multiset.coe_bind, Multiset.coe_bind] at hbind

theorem map_self {f g : β → α} {bs : List β} (h : ∀ b ∈ bs, R (f b) (g b)) :
    Reordered R (bs.map f) (bs.map g) := by
  rw [Reordered, ← Multiset.map_coe, ← Multiset.map_coe, Multiset.rel_map]
  exact Multiset.rel_refl_of_refl_on h

theorem filter {p q : α → Bool} (h : Reordered R xs ys) (hpq : ∀ a b, R a b → p a = q b) :
    Reordered R (xs.filter p) (ys.filter q) := by
  have step : ∀ {s t : Multiset α}, Multiset.Rel R s t →
      Multiset.Rel R (s.filter (p · = true)) (t.filter (q · = true)) := by
    intro s t hst
    induction hst with
    | zero => exact .zero
    | @cons a b s t hab _ ih =>
      by_cases ha : p a = true
      · have hb : q b = true := hpq a b hab ▸ ha
        rw [Multiset.filter_cons_of_pos s ha, Multiset.filter_cons_of_pos t hb]
        exact .cons hab ih
      · have hb : ¬ q b = true := hpq a b hab ▸ ha
        rw [Multiset.filter_cons_of_neg s ha, Multiset.filter_cons_of_neg t hb]
        exact ih
  have hfilter := step h
  rw [Multiset.filter_coe, Multiset.filter_coe] at hfilter
  simpa using hfilter

theorem map_perm {f : α → β} (h : Reordered R xs ys) (hf : ∀ a b, R a b → f a = f b) :
    (xs.map f).Perm (ys.map f) := by
  have heq : Multiset.Rel (fun a b => f a = f b) (xs : Multiset α) (ys : Multiset α) :=
    h.mono fun a _ b _ hab => hf a b hab
  rw [← Multiset.rel_map, Multiset.rel_eq, Multiset.map_coe, Multiset.map_coe] at heq
  exact Multiset.coe_eq_coe.mp heq

theorem perm_right (h : Reordered R xs ys) (hp : ys.Perm ys') : Reordered R xs ys' := by
  rwa [Reordered, ← Multiset.coe_eq_coe.mpr hp]

theorem perm_left (h : Reordered R xs ys) (hp : xs.Perm xs') : Reordered R xs' ys := by
  rwa [Reordered, ← Multiset.coe_eq_coe.mpr hp]

theorem mem_left (h : Reordered R xs ys) {a : α} (ha : a ∈ xs) : ∃ b ∈ ys, R a b :=
  Multiset.exists_mem_of_rel_of_mem h ha

theorem mem_right (h : Reordered R xs ys) {b : α} (hb : b ∈ ys) : ∃ a ∈ xs, R a b :=
  Multiset.exists_mem_of_rel_of_mem (Multiset.rel_flip.mpr h) hb

theorem isEmpty_eq (h : Reordered R xs ys) : ys.isEmpty = xs.isEmpty := by
  have hlength : xs.length = ys.length := Multiset.card_eq_card_of_rel h
  rw [Bool.eq_iff_iff, List.isEmpty_iff_length_eq_zero, List.isEmpty_iff_length_eq_zero, hlength]

end Reordered

/-! ## Names in sight -/

namespace Expr

mutual

/-- The order of the names in sight does not matter. -/
theorem check_congr {vis vis' : Visible} (hp : ∀ x, x ∈ vis'.plain ↔ x ∈ vis.plain)
    (he : vis'.exports = vis.exports) : ∀ (e : Expr) (locals : List String),
    e.check vis' locals = e.check vis locals
  | .var pos x, locals => by
    simp only [check, Visible.checkVar, List.contains_eq_mem, hp]
  | .qualified pos mod x, locals => by simp only [check, Visible.checkQualified, he]
  | .int .., _ | .str .., _ | .bool .., _ | .unit .., _ | .operator .., _ => by simp only [check]
  | .app fn args, locals => by
    simp only [check, check_congr hp he fn, checkAll_congr hp he args]
  | .binary _ _ l r, locals => by simp only [check, check_congr hp he l, check_congr hp he r]
  | .negate _ e, locals => by simp only [check, check_congr hp he e]
  | .lambda _ p ps body, locals => by simp only [check, check_congr hp he body]
  | .letIn _ binds body, locals => by
    simp only [check, checkBinds_congr hp he binds, check_congr hp he body]
  | .cond _ test yes no, locals => by
    simp only [check, check_congr hp he test, check_congr hp he yes, check_congr hp he no]

theorem checkAll_congr {vis vis' : Visible} (hp : ∀ x, x ∈ vis'.plain ↔ x ∈ vis.plain)
    (he : vis'.exports = vis.exports) : ∀ (es : List Expr) (locals : List String),
    checkAll vis' locals es = checkAll vis locals es
  | [], _ => by simp only [checkAll]
  | e :: es, locals => by simp only [checkAll, check_congr hp he e, checkAll_congr hp he es]

theorem checkBinds_congr {vis vis' : Visible} (hp : ∀ x, x ∈ vis'.plain ↔ x ∈ vis.plain)
    (he : vis'.exports = vis.exports) : ∀ (bs : List Binding) (locals : List String),
    checkBinds vis' locals bs = checkBinds vis locals bs
  | [], _ => by simp only [checkBinds]
  | ⟨_, _, params, _, body⟩ :: bs, locals => by
    simp only [checkBinds, check_congr hp he body, checkBinds_congr hp he bs]

end

end Expr

section
variable {R : String → String → Prop}

/-! ## One piece -/

namespace Piece

variable {p p' : Piece}

theorem Renamed.diagnostics (h : p.Renamed R p') :
    Reordered (Diagnostic.Renamed R) p.diagnostics p'.diagnostics := by
  obtain ⟨source', decls'⟩ := p'
  obtain ⟨hs, rfl⟩ := h
  exact Reordered.map_self fun _ _ => ⟨hs, rfl, rfl⟩

theorem Renamed.bound (h : p.Renamed R p') : p'.bound = p.bound := by
  simp only [Piece.bound, Piece.bindings, h.decls]

theorem name_mem_bound {d : Definition} (hd : d ∈ p.definitions) : d.binding.name ∈ p.bound := by
  obtain ⟨b, hb, rfl⟩ := List.mem_map.mp hd
  exact List.mem_map_of_mem hb

theorem definitions_source (source : String) {decls : List Decl} (h : decls = p.decls) :
    (⟨source, decls⟩ : Piece).definitions = p.definitions.map (Definition.under source) := by
  subst h
  simp only [Piece.definitions, List.map_map]
  rfl

end Piece

/-! ## All pieces -/

namespace Program

variable {ps ps' : List Piece}

/-- No two pieces bind the same name. -/
def BoundApart (ps : List Piece) : Prop := ps.Pairwise fun p q => p.bound.Disjoint q.bound

theorem foldl_addDefinition_apart {done : List Definition} (ds : List Definition) :
    (∀ d ∈ ds, ∀ e ∈ done, e.binding.name ≠ d.binding.name) → ∀ more : List Definition,
      ds.foldl addDefinition (done ++ more) = done ++ ds.foldl addDefinition more := by
  induction ds with
  | nil => exact fun _ _ => rfl
  | cons d ds ih =>
    intro h more
    rw [List.forall_mem_cons] at h
    have hadd : addDefinition (done ++ more) d = done ++ addDefinition more d := by
      have hdone : done.filter (·.binding.name ≠ d.binding.name) = done :=
        List.filter_eq_self.mpr fun e he => decide_eq_true (h.1 e he)
      rw [addDefinition, List.filter_append, hdone, List.append_assoc]
      rfl
    rw [List.foldl_cons, hadd, ih h.2, List.foldl_cons]

theorem definitions_of_boundApart (h : BoundApart ps) :
    definitions ps = ps.flatMap fun p => definitions [p] := by
  induction ps with
  | nil => rfl
  | cons p ps ih =>
    obtain ⟨hp, hps⟩ := List.pairwise_cons.mp h
    have hone : definitions [p] = p.definitions.foldl addDefinition [] := by
      rw [definitions, List.flatMap_singleton]
    -- nothing that follows replaces a definition of this piece
    have hapart : ∀ d ∈ ps.flatMap (·.definitions), ∀ e ∈ definitions [p],
        e.binding.name ≠ d.binding.name := by
      intro d hd e he hname
      obtain ⟨q, hq, hd⟩ := List.mem_flatMap.mp hd
      obtain ⟨p', hp', he⟩ := mem_definitions he
      rw [List.mem_singleton.mp hp'] at he
      exact hp q hq (Piece.name_mem_bound he) (hname ▸ Piece.name_mem_bound hd)
    have hfold := foldl_addDefinition_apart _ hapart []
    rw [List.append_nil] at hfold
    rw [List.flatMap_cons, ← ih hps, definitions, List.flatMap_cons, List.foldl_append, ← hone, hfold]
    rfl

theorem definitions_single {p p' : Piece} (h : p.Renamed R p') :
    Reordered (Definition.Renamed R) (definitions [p]) (definitions [p']) := by
  obtain ⟨source, decls⟩ := p'
  have hmap : definitions [⟨source, decls⟩] = (definitions [p]).map (Definition.under source) := by
    rw [definitions, definitions, List.flatMap_singleton, List.flatMap_singleton,
      Piece.definitions_source source h.decls, List.foldl_map]
    change List.foldl _ (List.map (Definition.under source) []) _ = _
    refine List.foldl_hom (List.map (Definition.under source)) fun ds d => ?_
    simp only [addDefinition, List.filter_map, List.map_append, List.map_cons, List.map_nil]
    rfl
  have hall : ∀ d ∈ definitions [p], Definition.Renamed R d (d.under source) := by
    intro d hd
    obtain ⟨q, hq, hd⟩ := mem_definitions hd
    obtain ⟨b, -, rfl⟩ := List.mem_map.mp hd
    exact ⟨List.mem_singleton.mp hq ▸ h.source, rfl, rfl⟩
  have hself := Reordered.map_self (f := id) hall
  rwa [List.map_id, ← hmap] at hself

theorem BoundApart.reordered (h : BoundApart ps) (hr : Reordered (Piece.Renamed R) ps ps') :
    BoundApart ps' := by
  have hbound : (ps.map Piece.bound).Perm (ps'.map Piece.bound) :=
    hr.map_perm fun p p' hp => hp.bound.symm
  have hpair : (ps.map Piece.bound).Pairwise List.Disjoint := List.pairwise_map.mpr h
  exact List.pairwise_map.mp (hbound.pairwise hpair fun hxy => hxy.symm)

theorem reordered_definitions (h : BoundApart ps) (hr : Reordered (Piece.Renamed R) ps ps') :
    Reordered (Definition.Renamed R) (definitions ps) (definitions ps') := by
  rw [definitions_of_boundApart h, definitions_of_boundApart (h.reordered hr)]
  exact hr.flatMap fun _ _ => definitions_single

theorem definitions_snoc (ps : List Piece) {q : Piece} {d : Definition} (hq : q.definitions = [d]) :
    definitions (ps ++ [q]) =
      (definitions ps).filter (·.binding.name ≠ d.binding.name) ++ [d] := by
  rw [definitions, List.flatMap_append, List.flatMap_singleton, List.foldl_append, hq]
  rfl

theorem reordered_definitions_snoc (h : BoundApart ps) (hr : Reordered (Piece.Renamed R) ps ps')
    {q : Piece} {d : Definition} (hq : q.definitions = [d]) (hd : R d.source d.source) :
    Reordered (Definition.Renamed R) (definitions (ps ++ [q])) (definitions (ps' ++ [q])) := by
  rw [definitions_snoc ps hq, definitions_snoc ps' hq]
  refine ((reordered_definitions h hr).filter fun a b hab => ?_).append ?_
  · rw [hab.binding]
  · exact Multiset.rel_refl_of_refl_on fun x hx => by
      rw [List.mem_singleton.mp hx]
      exact ⟨hd, rfl, rfl⟩

theorem reordered_scopeDiagnostics (hd : Reordered (Definition.Renamed R) (definitions ps)
    (definitions ps')) : Reordered (Diagnostic.Renamed R) (scopeDiagnostics ps (visible ps []))
      (scopeDiagnostics ps' (visible ps' [])) := by
  have hnames := hd.map_perm fun d d' h => congrArg BindingOf.name h.binding.symm
  have hplain : ∀ x, x ∈ (visible ps' []).plain ↔ x ∈ (visible ps []).plain := by
    intro x
    simp only [visible, List.flatMap_nil, List.append_nil, List.mem_append]
    rw [hnames.mem_iff]
  refine hd.flatMap fun d d' h => ?_
  rw [h.binding, Expr.check_congr hplain rfl]
  exact Reordered.map_self fun _ _ => ⟨h.source, rfl, rfl⟩

theorem imports_eq_nil (h : ∀ p ∈ ps, p.decls.filterMap Decl.imported? = []) : imports ps = [] := by
  have hmodules : modules ps = [] := by
    rw [modules, List.flatMap_eq_nil_iff.mpr h]
    rfl
  rw [← List.map_eq_nil_iff, names_imports, hmodules]

theorem nodup_definitions (ps : List Piece) : ((definitions ps).map (·.binding.name)).Nodup := by
  have hnil : (([] : List Definition).map (·.binding.name)).Nodup := List.nodup_nil
  refine List.foldlRecOn (motive := fun (ds : List Definition) => (ds.map (·.binding.name)).Nodup) _ _
    hnil ?_
  intro ds hds d _
  rw [addDefinition, List.map_append, List.nodup_append]
  refine ⟨hds.sublist (List.filter_sublist.map _), by simp, ?_⟩
  rintro x hx y hy rfl
  obtain ⟨e, he, rfl⟩ := List.mem_map.mp hx
  have hne := of_decide_eq_true (List.mem_filter.mp he).2
  exact hne (by simpa using hy)

/-- The checks of a program whose pieces stand in another order, with one more piece behind them. -/
theorem reordered_check (h : BoundApart ps) (hr : Reordered (Piece.Renamed R) ps ps')
    {q : Piece} {d : Definition} (hq : q.definitions = [d]) (hqs : R q.source q.source)
    (hi : ∀ p ∈ ps ++ [q], p.decls.filterMap Decl.imported? = []) (name name' : String) :
    (∃ ds ds', check name (ps ++ [q]) [] = .error ds ∧ check name' (ps' ++ [q]) [] = .error ds' ∧
        Reordered (Diagnostic.Renamed R) ds ds') ∨
      (check name (ps ++ [q]) [] = .ok ⟨name, [], definitions (ps ++ [q])⟩ ∧
        check name' (ps' ++ [q]) [] = .ok ⟨name', [], definitions (ps' ++ [q])⟩) := by
  have hds : R d.source d.source := by
    have hmem : d ∈ q.definitions := by simp [hq]
    obtain ⟨b, -, rfl⟩ := List.mem_map.mp hmem
    exact hqs
  have hone : Reordered (Piece.Renamed R) [q] [q] :=
    Multiset.rel_refl_of_refl_on fun x hx => List.mem_singleton.mp hx ▸ ⟨hqs, rfl⟩
  have hall := hr.append hone
  have hdefs := reordered_definitions_snoc h hr hq hds
  have himports : imports (ps ++ [q]) = [] := imports_eq_nil hi
  have himports' : imports (ps' ++ [q]) = [] := by
    refine imports_eq_nil fun p' hp' => ?_
    obtain ⟨p, hp, hpp⟩ := hall.mem_right hp'
    rw [hpp.decls]
    exact hi p hp
  have hsaid : Reordered (Diagnostic.Renamed R)
      ((ps ++ [q]).flatMap (·.diagnostics) ++ scopeDiagnostics (ps ++ [q]) (visible (ps ++ [q]) []))
      ((ps' ++ [q]).flatMap (·.diagnostics) ++
        scopeDiagnostics (ps' ++ [q]) (visible (ps' ++ [q]) [])) :=
    (hall.flatMap fun _ _ hp => hp.diagnostics).append (reordered_scopeDiagnostics hdefs)
  unfold check
  simp only [himports, himports', List.flatMap_nil, List.append_nil, hsaid.isEmpty_eq]
  split
  · exact .inr ⟨rfl, rfl⟩
  -- they are sorted by the places of their sources, which are other ones
  · refine .inl ⟨_, _, rfl, rfl, (hsaid.perm_left ?_).perm_right ?_⟩
    · exact (List.mergeSort_perm _ _).symm
    · exact (List.mergeSort_perm _ _).symm

end Program

end

end LazySession

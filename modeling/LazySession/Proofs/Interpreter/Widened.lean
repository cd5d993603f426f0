import LazySession.Proofs.Interpreter.Transparent
import Mathlib.Data.List.Forall2

/-!
# Programs that pass keep passing

What passes the checks passes them still if some modules export more, or if more pieces come behind
that pass themselves: `Interpreter.compiled_widened`.
-/

namespace LazySession

/-! ## Names -/

namespace Visible

/-- All that is seen in the first way is seen in the second. -/
structure Within (vis vis' : Visible) : Prop where
  plain : vis.plain ⊆ vis'.plain
  exports : ∀ mod o, vis.exports.get? mod = some o →
    ∃ names names', o = some names ∧ vis'.exports.get? mod = some (some names') ∧ names ⊆ names'

variable {vis vis' : Visible}

theorem Within.checkVar (h : vis.Within vis') {locals : List String} {pos : Pos} {x : String}
    (hx : vis.checkVar locals pos x = []) : vis'.checkVar locals pos x = [] := by
  unfold Visible.checkVar at hx ⊢
  split at hx
  · rename_i hm
    simp only [Bool.or_eq_true, List.contains_eq_mem, decide_eq_true_eq] at hm ⊢
    rw [if_pos (hm.imp_right (h.plain ·))]
  · cases hx

theorem Within.checkQualified (h : vis.Within vis') {pos : Pos} {mod x : String}
    (hx : vis.checkQualified pos mod x = []) : vis'.checkQualified pos mod x = [] := by
  unfold Visible.checkQualified at hx
  cases ho : vis.exports.get? mod with
  | none =>
    rw [ho] at hx
    cases hx
  | some o =>
    obtain ⟨names, names', rfl, ho', hsub⟩ := h.exports mod o ho
    rw [ho] at hx
    simp only [List.contains_eq_mem, decide_eq_true_eq] at hx
    split at hx
    · rename_i hm
      unfold Visible.checkQualified
      rw [ho']
      simp only [List.contains_eq_mem, decide_eq_true_eq]
      rw [if_pos (hsub hm)]
    · cases hx

end Visible

namespace Expr

variable {vis vis' : Visible}

mutual

theorem check_within (h : vis.Within vis') : ∀ (e : Expr) (locals : List String),
    e.check vis locals = [] → e.check vis' locals = []
  | .var .., _, he => h.checkVar he
  | .qualified .., _, he => h.checkQualified he
  | .int .., _, _ | .str .., _, _ | .bool .., _, _ | .unit .., _, _ | .operator .., _, _ => by
    simp [check]
  | .app fn args, locals, he => by
    simp only [check, List.append_eq_nil_iff] at he ⊢
    exact ⟨check_within h fn locals he.1, checkAll_within h args locals he.2⟩
  | .binary _ _ l r, locals, he => by
    simp only [check, List.append_eq_nil_iff] at he ⊢
    exact ⟨check_within h l locals he.1, check_within h r locals he.2⟩
  | .negate _ e, locals, he => by
    simp only [check] at he ⊢
    exact check_within h e locals he
  | .lambda _ p ps body, locals, he => by
    simp only [check] at he ⊢
    exact check_within h body _ he
  | .letIn _ binds body, locals, he => by
    simp only [check, List.append_eq_nil_iff] at he ⊢
    exact ⟨checkBinds_within h binds _ he.1, check_within h body _ he.2⟩
  | .cond _ test yes no, locals, he => by
    simp only [check, List.append_eq_nil_iff] at he ⊢
    exact ⟨⟨check_within h test locals he.1.1, check_within h yes locals he.1.2⟩,
      check_within h no locals he.2⟩

theorem checkAll_within (h : vis.Within vis') : ∀ (es : List Expr) (locals : List String),
    checkAll vis locals es = [] → checkAll vis' locals es = []
  | [], _, _ => by simp [checkAll]
  | e :: es, locals, he => by
    simp only [checkAll, List.append_eq_nil_iff] at he ⊢
    exact ⟨check_within h e locals he.1, checkAll_within h es locals he.2⟩

theorem checkBinds_within (h : vis.Within vis') : ∀ (bs : List Binding) (locals : List String),
    checkBinds vis locals bs = [] → checkBinds vis' locals bs = []
  | [], _, _ => by simp [checkBinds]
  | ⟨_, _, params, _, body⟩ :: bs, locals, he => by
    simp only [checkBinds, List.append_eq_nil_iff] at he ⊢
    exact ⟨check_within h body _ he.1, checkBinds_within h bs locals he.2⟩

end

end Expr

/-! ## Pieces -/

namespace Program

/-- Both are imports of which the exports are known, and those of the second are more. -/
def Import.Within (i i' : Import) : Prop :=
  ∃ names names', i = .exports names ∧ i' = .exports names' ∧ names ⊆ names'

/-- The same modules are imported, and the second time they export more. -/
abbrev Widens (imported imported' : Table Import) : Prop :=
  List.Forall₂ (fun p p' => p.1 = p'.1 ∧ p.2.Within p'.2) imported imported'

variable {ps qs : List Piece} {imported imported' more : Table Import}

theorem Widens.get? (h : Widens imported imported') {mod : String} {i : Import}
    (hi : imported.get? mod = some i) : ∃ i', imported'.get? mod = some i' ∧ i.Within i' := by
  induction h with
  | nil => cases hi
  | @cons p p' imported imported' hp _ ih =>
    obtain ⟨m, j⟩ := p
    obtain ⟨m', j'⟩ := p'
    obtain ⟨rfl, hj⟩ := hp
    simp only [Table.get?] at hi ⊢
    split at hi
    · rename_i hm
      cases hi
      exact ⟨j', if_pos hm, hj⟩
    · rename_i hm
      rw [if_neg hm]
      exact ih hi

theorem Widens.mem (h : Widens imported imported') {p : String × Import} (hp : p ∈ imported) :
    ∃ p' ∈ imported', p.1 = p'.1 ∧ p.2.Within p'.2 := by
  induction h with
  | nil => cases hp
  | cons hq _ ih =>
    rcases List.mem_cons.mp hp with rfl | hp
    · exact ⟨_, List.mem_cons_self, hq⟩
    · obtain ⟨p', hp', hw⟩ := ih hp
      exact ⟨p', List.mem_cons_of_mem _ hp', hw⟩

theorem names_definitions_append (ps qs : List Piece) :
    (definitions ps).map (·.binding.name) ⊆ (definitions (ps ++ qs)).map (·.binding.name) := by
  have step : ∀ (ds done : List Definition),
      done.map (·.binding.name) ⊆ (ds.foldl addDefinition done).map (·.binding.name) := by
    intro ds
    induction ds with
    | nil => exact fun done => List.Subset.refl _
    | cons d ds ih =>
      intro done x hx
      refine ih (addDefinition done d) ?_
      obtain ⟨e, he, rfl⟩ := List.mem_map.mp hx
      by_cases hn : e.binding.name = d.binding.name
      · exact List.mem_map.mpr ⟨d, by simp [addDefinition], hn.symm⟩
      · exact List.mem_map.mpr ⟨e, by simp [addDefinition, he, hn], rfl⟩
  unfold definitions
  rw [List.flatMap_append, List.foldl_append]
  exact step _ _

theorem mem_definitions_append {d : Definition} (h : d ∈ definitions (ps ++ qs)) :
    d ∈ definitions ps ∨ ∃ q ∈ qs, d ∈ q.definitions := by
  have step : ∀ (ds done : List Definition), d ∈ ds.foldl addDefinition done → d ∈ done ∨ d ∈ ds := by
    intro ds
    induction ds with
    | nil => exact fun done h => .inl h
    | cons e ds ih =>
      intro done h
      rcases ih _ h with h | h
      · rcases mem_addDefinition h with h | rfl
        · exact .inl h
        · exact .inr List.mem_cons_self
      · exact .inr (List.mem_cons_of_mem _ h)
  unfold definitions at h ⊢
  rw [List.flatMap_append, List.foldl_append] at h
  exact (step _ _ h).imp_right List.mem_flatMap.mp

theorem imports_append (ps qs : List Piece) : ∃ extra, imports (ps ++ qs) = imports ps ++ extra ∧
    ∀ i ∈ extra, i ∈ qs.flatMap (·.imports) := by
  have step : ∀ is seen : List (String × Pos × String), ∃ extra,
      is.foldl (fun seen i => if seen.any (·.2.2 == i.2.2) then seen else seen ++ [i]) seen =
        seen ++ extra ∧ ∀ i ∈ extra, i ∈ is := by
    intro is
    induction is with
    | nil => exact fun seen => ⟨[], (List.append_nil _).symm, nofun⟩
    | cons i is ih =>
      intro seen
      obtain ⟨extra, he, hmem⟩ := ih (if seen.any (·.2.2 == i.2.2) then seen else seen ++ [i])
      rw [List.foldl_cons, he]
      split
      · exact ⟨extra, rfl, fun j hj => List.mem_cons_of_mem _ (hmem j hj)⟩
      · refine ⟨i :: extra, by simp, fun j hj => ?_⟩
        exact (List.mem_cons.mp hj).elim (· ▸ List.mem_cons_self) fun hj =>
          List.mem_cons_of_mem _ (hmem j hj)
  unfold imports
  rw [List.flatMap_append, List.foldl_append]
  exact step _ _

theorem mem_imports {i : String × Pos × String} (hi : i ∈ ps.flatMap (·.imports)) :
    i.2.2 ∈ (imports ps).map (·.2.2) := by
  have step : ∀ is seen : List (String × Pos × String), (∀ j ∈ is ++ seen, j.2.2 ∈
      (is.foldl (fun seen i => if seen.any (·.2.2 == i.2.2) then seen else seen ++ [i]) seen).map
        (·.2.2)) := by
    intro is
    induction is with
    | nil => exact fun seen j hj => List.mem_map_of_mem hj
    | cons k is ih =>
      intro seen j hj
      have ih := ih (if seen.any (·.2.2 == k.2.2) then seen else seen ++ [k])
      rw [List.foldl_cons]
      simp only [List.cons_append, List.mem_cons, List.mem_append] at hj
      split at ih <;> rename_i hany
      · rw [if_pos hany]
        rcases hj with rfl | hj | hj
        · obtain ⟨j', hj', he⟩ := List.any_eq_true.mp hany
          rw [← eq_of_beq he]
          exact ih j' (List.mem_append_right _ hj')
        · exact ih j (List.mem_append_left _ hj)
        · exact ih j (List.mem_append_right _ hj)
      · rw [if_neg hany]
        refine ih j ?_
        simp only [List.mem_append, List.mem_singleton]
        exact hj.elim (.inr ∘ .inr) (Or.imp_right .inl)
  exact step _ [] i (List.mem_append_left _ hi)

/-- The exports of an import, if they are known. -/
def Import.names? : Import → Option (List String)
  | exports names => some names
  | _ => none

theorem get?_visible (ps : List Piece) (imported : Table Import) (mod : String) :
    (visible ps imported).exports.get? mod = (imported.get? mod).map Import.names? :=
  Table.get?_map_snd Import.names? imported mod

theorem get?_append_left {t u : Table Import} {mod : String} {i : Import}
    (h : t.get? mod = some i) : Table.get? (t ++ u) mod = some i := by
  induction t with
  | nil => cases h
  | cons p t ih =>
    simp only [List.cons_append, Table.get?] at h ⊢
    split at h
    · rename_i hm
      rw [if_pos hm]
      exact h
    · rename_i hm
      rw [if_neg hm]
      exact ih h

/-- What is seen is seen with more pieces and wider imports. -/
theorem within_visible {ps' : List Piece}
    (hnames : (definitions ps).map (·.binding.name) ⊆ (definitions ps').map (·.binding.name))
    (h : Widens imported imported') :
    (visible ps imported).Within (visible ps' (imported' ++ more)) where
  plain := by
    intro x hx
    simp only [visible, List.mem_append, List.mem_flatMap, List.flatMap_append] at hx ⊢
    rcases hx with (hx | ⟨p, hp, hx⟩) | hx
    · exact .inl (.inl (hnames hx))
    · obtain ⟨p', hp', -, names, names', hi, hi', hsub⟩ := h.mem hp
      refine .inl (.inr (.inl ⟨p', hp', ?_⟩))
      rw [hi] at hx
      rw [hi']
      exact hsub hx
    · exact .inr hx
  exports mod o ho := by
    rw [get?_visible] at ho
    obtain ⟨i, hi, rfl⟩ := Option.map_eq_some_iff.mp ho
    obtain ⟨i', hi', names, names', rfl, rfl, hsub⟩ := h.get? hi
    refine ⟨names, names', rfl, ?_, hsub⟩
    rw [get?_visible, get?_append_left hi']
    rfl

/-- What passes still passes with wider imports and with more pieces that pass. -/
theorem check_widened {ps' : List Piece} {name : String} {c : ModuleCode}
    (hc : check name ps imported = .ok c)
    (hnames : (definitions ps).map (·.binding.name) ⊆ (definitions ps').map (·.binding.name))
    (h : Widens imported imported') (hp : ∀ p ∈ ps', p.diagnostics = [])
    (hi : ∀ i ∈ imports ps', ∃ names, (imported' ++ more).get? i.2.2 = some (.exports names))
    (hd : ∀ d ∈ definitions ps', d ∈ definitions ps ∨ d.binding.body.check
      (visible ps' (imported' ++ more)) (Expr.paramNames d.binding.params) = []) :
    check name ps' (imported' ++ more) =
      .ok ⟨name, (imports ps').map (·.2.2), definitions ps'⟩ := by
  obtain ⟨-, -, hscope⟩ := check_ok hc
  refine check_eq_ok hp (fun i him => ?_) fun d hdm => ?_
  · obtain ⟨names, hn⟩ := hi i him
    rw [hn]
    rfl
  · rcases hd d hdm with hold | hnew
    · exact Expr.check_within (within_visible hnames h) _ _ (hscope d hold)
    · exact hnew

end Program

/-! ## The search -/

namespace Interpreter

open ModuleCode
open Program (Widens)

/-- Whatever is known is known to export at least the same, and what is known besides has no
source. -/
structure Outdoes (locator : Locator) (known known' : String → Option ModuleCode) : Prop where
  more : ∀ n c, known n = some c → ∃ c', known' n = some c' ∧ c.exports ⊆ c'.exports
  new : ∀ n, known n = none → known' n = none ∨ ∀ file, locator.find n ≠ .ok file

/-- What one way finds, the other one finds, with more exports. -/
def Widened (known : String → Option ModuleCode)
    (resolve resolve' : String → StateM Search Program.Import) : Prop :=
  ∀ mod (s : Search), s.Good known → ∀ names, ((resolve mod).run s).1 = .exports names →
    ((resolve mod).run s).1.Within ((resolve' mod).run s).1 ∧
      ((resolve' mod).run s).2 = ((resolve mod).run s).2

section
variable {known : String → Option ModuleCode} {resolving : List String}
variable {resolve resolve' : String → StateM Search Program.Import}

theorem widens_importAll (hr : Resolves known resolving resolve) (hw : Widened known resolve resolve')
    (is : List (String × Pos × String)) : ∀ s : Search, s.Good known →
      (∀ p ∈ ((importAll resolve is).run s).1, ∃ names, p.2 = .exports names) →
      Widens ((importAll resolve is).run s).1 ((importAll resolve' is).run s).1 ∧
        ((importAll resolve' is).run s).2 = ((importAll resolve is).run s).2 := by
  induction is with
  | nil => exact fun s _ _ => ⟨.nil, rfl⟩
  | cons i is ih =>
    intro s hs hall
    rw [run_importAll] at hall
    rw [List.forall_mem_cons] at hall
    obtain ⟨⟨names, hnames⟩, hall⟩ := hall
    obtain ⟨hone, hstate⟩ := hw i.2.2 s hs names hnames
    obtain ⟨hrest, hstate'⟩ := ih _ (hr i.2.2 s hs).finds.good hall
    rw [run_importAll, run_importAll, hstate, hstate']
    exact ⟨.cons ⟨rfl, hone⟩ hrest, rfl⟩

theorem widened_compile (hr : Resolves known resolving resolve) (hw : Widened known resolve resolve')
    {name : String} {ps : List Piece} {s : Search} (hs : s.Good known) {c : ModuleCode}
    (hc : ((compile resolve name ps).run s).1 = .ok c) :
    (compile resolve' name ps).run s = (compile resolve name ps).run s := by
  have h := imported_importAll hr (Program.imports ps) s hs
  change Program.check name ps ((importAll resolve (Program.imports ps)).run s).1 = .ok c at hc
  obtain ⟨-, hall⟩ := Program.check_faithful hc h.names h.faithful
  obtain ⟨hwidens, hstate⟩ := widens_importAll hr hw (Program.imports ps) s hs hall
  have hcheck : Program.check name ps ((importAll resolve' (Program.imports ps)).run s).1 = .ok c := by
    have hsome : ∀ i ∈ Program.imports ps, ∃ names,
        Table.get? (((importAll resolve' (Program.imports ps)).run s).1 ++ []) i.2.2 =
          some (.exports names) := by
      intro i hi
      have hmem : i.2.2 ∈ ((importAll resolve (Program.imports ps)).run s).1.names := by
        rw [h.names]
        exact List.mem_map_of_mem hi
      obtain ⟨j, hj⟩ := Option.isSome_iff_exists.mp (Table.get?_isSome.mpr hmem)
      obtain ⟨j', hj', _, names', _, rfl, _⟩ := hwidens.get? hj
      exact ⟨names', by rw [List.append_nil]; exact hj'⟩
    have hwide := Program.check_widened hc (List.Subset.refl _) hwidens
      (Program.diagnostics_of_check hc) hsome fun d hd => .inl hd
    rw [List.append_nil] at hwide
    rw [hwide, (Program.check_ok hc).1]
  exact Prod.ext (hcheck.trans hc.symm) hstate

theorem widened_compileFile (hr : Resolves known resolving resolve)
    (hw : Widened known resolve resolve') {file : SourceFile} {s : Search} (hs : s.Good known)
    {names : List String} (hn : ((compileFile resolve file).run s).1 = .exports names) :
    (compileFile resolve' file).run s = (compileFile resolve file).run s := by
  have hcache := (isReading_readModule hs.cache file.path file.text).2
  unfold compileFile at hn ⊢
  simp only [StateT.run_bind, StateT.run_get, StateT.run_set, pure_bind] at hn ⊢
  generalize readModule file.path file.text s.cache = q at hn hcache ⊢
  obtain ⟨parsed, cache⟩ := q
  simp only at hn hcache ⊢
  have hs₁ : Search.Good known { s with cache } := ⟨hcache, hs.found⟩
  split at hn
  · cases hn
  · split at hn
    · cases hn
    · rename_i m hname
      simp only [StateT.run_bind] at hn ⊢
      cases hc : ((compile resolve file.name [⟨file.path, m.decls⟩]).run { s with cache }).1 with
      | error ds =>
        simp only [bind, StateT.run] at hn hc
        rw [hc] at hn
        cases hn
      | ok code =>
        simp only [if_neg hname, StateT.run_bind]
        rw [widened_compile hr hw hs₁ hc]
  · cases hn

end

theorem widened_resolve {locator : Locator} {known known' : String → Option ModuleCode}
    (h : Outdoes locator known known') (fuel : Nat) : ∀ resolving,
      Widened known (resolve locator known fuel resolving) (resolve locator known' fuel resolving) := by
  induction fuel with
  | zero =>
    intro resolving mod s _ names hn
    cases hn
  | succ fuel ih =>
    intro resolving mod s hs names hn
    unfold resolve at hn ⊢
    simp only [StateT.run_bind, StateT.run_get, pure_bind] at hn ⊢
    cases hfound : s.found.find? (·.name == mod) with
    | some code => exact ⟨⟨_, _, rfl, rfl, List.Subset.refl _⟩, rfl⟩
    | none =>
      rw [hfound] at hn
      simp only at hn ⊢
      cases hknown : known mod with
      | some c =>
        obtain ⟨c', hc', hsub⟩ := h.more mod c hknown
        rw [hc']
        exact ⟨⟨_, _, rfl, rfl, hsub⟩, rfl⟩
      | none =>
        rw [hknown] at hn
        simp only at hn ⊢
        split at hn
        · cases hn
        · rename_i hres
          cases hfind : locator.find mod with
          | error e =>
            rw [hfind] at hn
            simp only at hn
            split at hn <;> cases hn
          | ok file =>
            have hnone : known' mod = none :=
              (h.new mod hknown).resolve_right fun hno => hno file hfind
            rw [hfind] at hn
            simp only at hn
            have hfile := widened_compileFile (resolves_resolve locator known fuel (mod :: resolving))
              (ih (mod :: resolving)) hs hn
            rw [hnone]
            simp only [if_neg hres]
            rw [hfile, hn]
            exact ⟨⟨_, _, rfl, rfl, List.Subset.refl _⟩, rfl⟩

theorem Search.Good.among_none {known : String → Option ModuleCode} {s : Search} (hs : s.Good known)
    {mod : String} (h : (known mod).isSome) : among s.found mod = none := by
  refine among_eq_none.mpr fun hm => ?_
  obtain ⟨d, hd, rfl⟩ := List.mem_map.mp hm
  rw [hs.found.unknown d hd] at h
  cases h

theorem run_importAll_append (resolve : String → StateM Search Program.Import)
    (is js : List (String × Pos × String)) : ∀ s : Search,
    (importAll resolve (is ++ js)).run s =
      (((importAll resolve is).run s).1 ++
        ((importAll resolve js).run ((importAll resolve is).run s).2).1,
        ((importAll resolve js).run ((importAll resolve is).run s).2).2) := by
  induction is with
  | nil => exact fun _ => rfl
  | cons i is ih =>
    intro s
    rw [List.cons_append, run_importAll, ih, run_importAll]
    rfl

theorem compiled_eq (ip : Interpreter) (known : String → Option ModuleCode) (name : String)
    (ps : List Piece) : ip.compiled known name ps =
      (Program.check name ps ((importAll (resolve ip.locator known (ip.locator.size + 2) [])
        (Program.imports ps)).run ⟨.disabled, []⟩).1).map
        (((importAll (resolve ip.locator known (ip.locator.size + 2) [])
          (Program.imports ps)).run ⟨.disabled, []⟩).2.found, ·) := rfl

theorem good_start (known : String → Option ModuleCode) : Search.Good known ⟨.disabled, []⟩ :=
  ⟨nofun, .nil⟩

/-- The pieces of a program with nothing at its end, and more pieces before that end. What is
imported besides is known, and what is defined besides passes if all that is known and imported is
seen. -/
theorem compiled_widened {ip : Interpreter} {known known' : String → Option ModuleCode}
    (h : Outdoes ip.locator known known') {name source : String} {ps qs : List Piece}
    {r : List ModuleCode × ModuleCode} (hr : ip.compiled known name (ps ++ [⟨source, []⟩]) = .ok r)
    (hq : ∀ q ∈ qs, q.diagnostics = [])
    (hi : ∀ i ∈ qs.flatMap (·.imports), (known' i.2.2).isSome)
    (hd : ∀ q ∈ qs, ∀ d ∈ q.definitions, ∀ imported : Table Program.Import,
      (∀ i ∈ (Program.imports (ps ++ qs)).map (·.2.2), ∀ c, known' i = some c →
        (i, .exports c.exports) ∈ imported) →
      d.binding.body.check (Program.visible (ps ++ qs ++ [⟨source, []⟩]) imported)
        (Expr.paramNames d.binding.params) = []) :
    ∃ r', ip.compiled known' name (ps ++ qs ++ [⟨source, []⟩]) = .ok r' := by
  -- the last piece says nothing
  have hempty : ∀ ps, Program.imports (ps ++ [⟨source, []⟩]) = Program.imports ps ∧
      Program.definitions (ps ++ [⟨source, []⟩]) = Program.definitions ps := by
    intro ps
    unfold Program.imports Program.definitions
    rw [List.flatMap_append, List.flatMap_append]
    exact ⟨congrArg _ (List.append_nil _), congrArg _ (List.append_nil _)⟩
  obtain ⟨extra, hextra, hmem⟩ := Program.imports_append ps qs
  have hresolves := resolves_resolve ip.locator known (ip.locator.size + 2) []
  have hresolves' := resolves_resolve ip.locator known' (ip.locator.size + 2) []
  have hwidened := widened_resolve h (ip.locator.size + 2) []
  have hold := imported_importAll hresolves (Program.imports ps) _ (good_start known)
  have hnew := imported_importAll hresolves' (Program.imports ps) _ (good_start known')
  have hwide := widens_importAll hresolves hwidened (Program.imports ps) _ (good_start known)
  rw [compiled_eq, (hempty ps).1] at hr
  rw [compiled_eq, (hempty _).1, hextra, run_importAll_append]
  generalize (importAll (resolve ip.locator known (ip.locator.size + 2) [])
    (Program.imports ps)).run ⟨.disabled, []⟩ = old at hr hold hwide
  generalize (importAll (resolve ip.locator known' (ip.locator.size + 2) [])
    (Program.imports ps)).run ⟨.disabled, []⟩ = new at hnew hwide ⊢
  obtain ⟨imported, s⟩ := old
  obtain ⟨imported', s'⟩ := new
  cases hc : Program.check name (ps ++ [⟨source, []⟩]) imported with
  | error ds =>
    rw [hc] at hr
    cases hr
  | ok c =>
    have hnames : imported.names = (Program.imports (ps ++ [⟨source, []⟩])).map (·.2.2) := by
      rw [(hempty ps).1]
      exact hold.names
    obtain ⟨-, hall⟩ := Program.check_faithful hc hnames hold.faithful
    obtain ⟨hwidens, -⟩ := hwide hall
    have hknown : ∀ i ∈ extra, (known' i.2.2).isSome := fun i him => hi i (hmem i him)
    simp only
    rw [run_importAll_known hknown fun i him => hnew.finds.good.among_none (hknown i him)]
    simp only
    generalize hmore : extra.map (fun i => (i.2.2, Program.importOf known' i.2.2)) = more
    have hexports : ∀ i ∈ (Program.imports (ps ++ qs)).map (·.2.2), ∃ names,
        (i, .exports names) ∈ imported' ++ more ∧ ∀ c, known' i = some c → names = c.exports := by
      intro i him
      rw [hextra, List.map_append, List.mem_append] at him
      rcases him with him | him
      · -- it has been resolved with more known
        obtain ⟨j, hj⟩ : ∃ j, imported.get? i = some j := by
          rw [← Option.isSome_iff_exists, Table.get?_isSome, hold.names]
          exact him
        obtain ⟨j', hj', _, names, _, rfl, _⟩ := hwidens.get? hj
        have hin := Table.mem_of_get? hj'
        refine ⟨names, List.mem_append_left _ hin, fun c hc => ?_⟩
        obtain ⟨c', hc', rfl⟩ := hnew.faithful _ hin
        rw [seen, hnew.finds.good.among_none (by simp [hc]), Option.none_or, hc] at hc'
        rw [Option.some.inj hc']
      · obtain ⟨k, hk, rfl⟩ := List.mem_map.mp him
        obtain ⟨c, hc⟩ := Option.isSome_iff_exists.mp (hknown k hk)
        refine ⟨c.exports, List.mem_append_right _ ?_, fun c' hc' => ?_⟩
        · rw [← hmore]
          exact List.mem_map.mpr ⟨k, hk, by simp [Program.importOf, hc]⟩
        · rw [hc] at hc'
          rw [Option.some.inj hc']
    have hnodup : (Table.names (imported' ++ more)).Nodup := by
      have hall : Table.names (imported' ++ more) = (Program.imports (ps ++ qs)).map (·.2.2) := by
        rw [hextra, List.map_append, ← hnew.names, ← hmore]
        simp [Table.names]
      rw [hall]
      exact Program.nodup_imports _
    have hdefined : (Program.definitions (ps ++ [⟨source, []⟩])).map (·.binding.name) ⊆
        (Program.definitions (ps ++ qs ++ [⟨source, []⟩])).map (·.binding.name) := by
      rw [(hempty _).2, (hempty _).2]
      exact Program.names_definitions_append ps qs
    have hpieces : ∀ p ∈ ps ++ qs ++ [⟨source, []⟩], p.diagnostics = [] := by
      intro p hp
      simp only [List.mem_append, List.mem_singleton] at hp
      rcases hp with (hp | hp) | rfl
      · exact Program.diagnostics_of_check hc p (List.mem_append_left _ hp)
      · exact hq p hp
      · rfl
    rw [Program.check_widened hc hdefined hwidens hpieces ?_ ?_]
    · exact ⟨_, rfl⟩
    · rw [(hempty _).1]
      intro i him
      obtain ⟨names, hn, -⟩ := hexports i.2.2 (List.mem_map_of_mem him)
      exact ⟨names, Table.get?_of_mem hnodup hn⟩
    · rw [(hempty _).2, (hempty _).2]
      intro d hdm
      refine (Program.mem_definitions_append hdm).imp_right ?_
      rintro ⟨q, hqm, hdq⟩
      refine hd q hqm d hdq _ fun i him c hc => ?_
      obtain ⟨names, hn, hnames⟩ := hexports i him
      rwa [hnames c hc] at hn

end Interpreter

end LazySession

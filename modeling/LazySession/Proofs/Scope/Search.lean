import LazySession.Interpreter
import LazySession.Proofs.Lang.Tidy
import LazySession.Proofs.Locate.Confined
import LazySession.Proofs.Table
import Mathlib.Logic.Relation

/-!
# The search for imported modules

`Interpreter.compiled_compile`: what is found on the way has passed the checks against what was found
before or known beforehand, and is there only because something that was looked for imports it.
-/

namespace LazySession

/-! ## The cache of texts that have been read -/

/-- It comes from reading some text. -/
def IsReading (a : Parsed) : Prop :=
  ∃ source text, a = Fragment.ofText source text ∨ a = (Module.ofText source text).map .module

theorem IsReading.tidy {f : Fragment} (h : IsReading (.ok f)) : f.Tidy := by
  obtain ⟨source, text, h | h⟩ := h
  · exact Fragment.tidy_ofText h.symm
  · cases hm : Module.ofText source text with
    | error es => rw [hm] at h; cases h
    | ok m =>
      rw [hm] at h
      cases h
      exact Module.tidy_ofText hm

theorem IsReading.error_ne_nil {es : List SyntaxError} (h : IsReading (.error es)) : es ≠ [] := by
  obtain ⟨source, text, h | h⟩ := h
  · exact Fragment.ofText_error h.symm
  · cases hm : Module.ofText source text with
    | error es' =>
      rw [hm] at h
      cases h
      exact Module.ofText_error hm
    | ok m => rw [hm] at h; cases h

namespace Cache

variable {α : Type} {P : String → α → Prop} {c : Cache α}

/-- What is held under a key has `P`. -/
def Each (P : String → α → Prop) (c : Cache α) : Prop := ∀ p ∈ c.entries, P p.1 p.2

theorem Each.set (h : c.Each P) {key : String} {a : α} (ha : P key a) : (c.set key a).Each P := by
  unfold Cache.set
  split
  · intro p hp
    simp only at hp
    split at hp
    · exact Table.forall_put h ha p hp
    · exact Table.forall_put h ha p (List.mem_of_mem_drop hp)
  · exact h

theorem Each.memo (h : c.Each P) (key : String) (compute : Unit → α) (ha : P key (compute ())) :
    P key (c.memo key compute).1 ∧ (c.memo key compute).2.Each P := by
  unfold Cache.memo Cache.find
  cases hg : c.get? key with
  | some a =>
    refine ⟨?_, h⟩
    unfold Cache.get? at hg
    split at hg
    · exact h _ (Table.mem_of_get? hg)
    · cases hg
  | none => exact ⟨ha, Each.set (c := { c with misses := c.misses + 1 }) h ha⟩

/-- All values have `P`. -/
def All (P : α → Prop) (c : Cache α) : Prop := ∀ p ∈ c.entries, P p.2

theorem All.memo {P : α → Prop} (h : c.All P) (key : String) {compute : Unit → α}
    (ha : P (compute ())) : P (c.memo key compute).1 ∧ (c.memo key compute).2.All P :=
  Each.memo (P := fun _ => P) h key compute ha

end Cache

theorem Interpreter.isReading_readFragment {c : Cache Parsed} (h : c.All IsReading)
    (source text : String) : IsReading (readFragment source text c).1 ∧
      (readFragment source text c).2.All IsReading :=
  h.memo _ ⟨source, text, .inl rfl⟩

theorem Interpreter.isReading_readModule {c : Cache Parsed} (h : c.All IsReading)
    (source text : String) : IsReading (readModule source text c).1 ∧
      (readModule source text c).2.All IsReading :=
  h.memo _ ⟨source, text, .inr rfl⟩

/-! ## Modules in the order in which they are found -/

namespace ModuleCode

/-- The first module of a name. -/
def among (cs : List ModuleCode) (k : String) : Option ModuleCode := cs.find? (·.name == k)

/-- The module `m` imports `n`. -/
def Uses (code? : String → Option ModuleCode) (m n : String) : Prop :=
  ∃ c, code? m = some c ∧ n ∈ c.imports

/-- Imports lead from `m` to `n`. -/
abbrev Leads (code? : String → Option ModuleCode) : String → String → Prop :=
  Relation.ReflTransGen (Uses code?)

variable {cs ds : List ModuleCode} {k : String} {c : ModuleCode}

theorem mem_of_among (h : among cs k = some c) : c ∈ cs ∧ c.name = k :=
  ⟨List.mem_of_find?_eq_some h, by simpa using List.find?_some h⟩

theorem among_append (h : among cs k = some c) : among (cs ++ ds) k = some c := by
  rw [among] at h
  rw [among, List.find?_append, h, Option.some_or]

theorem among_eq_none : among cs k = none ↔ k ∉ cs.map (·.name) := by
  simp [among, List.find?_eq_none]

theorem among_snoc (h : k ∉ cs.map (·.name)) (hk : c.name = k) : among (cs ++ [c]) k = some c := by
  have hnone := among_eq_none.mpr h
  rw [among] at hnone
  rw [among, List.find?_append, hnone, Option.none_or]
  simp [hk]

theorem among_of_mem (hn : (cs.map (·.name)).Nodup) (h : c ∈ cs) : among cs c.name = some c := by
  induction cs with
  | nil => cases h
  | cons d cs ih =>
    rw [List.map_cons, List.nodup_cons] at hn
    rcases List.mem_cons.mp h with rfl | h
    · simp [among]
    · have hne : d.name ≠ c.name := fun he => hn.1 (he ▸ List.mem_map_of_mem h)
      rw [among, List.find?_cons_of_neg (by simpa using hne)]
      exact ih hn.2 h

/-- The modules that a search sees: those found so far, and those known beforehand. -/
def seen (known : String → Option ModuleCode) (cs : List ModuleCode) (k : String) :
    Option ModuleCode :=
  (among cs k).or (known k)

/-- Modules in an order in which each of them passes against those before it. None has a name that
was known. -/
inductive Found (known : String → Option ModuleCode) : List ModuleCode → Prop
  | nil : Found known []
  | snoc {cs : List ModuleCode} {c : ModuleCode} (h : Found known cs)
    (hp : c.Passes (seen known cs)) (hn : c.name ∉ cs.map (·.name)) (hk : known c.name = none) :
    Found known (cs ++ [c])

section
variable {known : String → Option ModuleCode}

theorem seen_none (cs : List ModuleCode) : seen (fun _ => none) cs = among cs :=
  funext fun _ => Option.or_none

theorem Found.unknown (h : Found known cs) : ∀ c ∈ cs, known c.name = none := by
  induction h with
  | nil => nofun
  | snoc _ _ _ hk ih =>
    intro d hd
    rcases List.mem_append.mp hd with hd | hd
    · exact ih d hd
    · rw [List.mem_singleton.mp hd]
      exact hk

theorem Found.nodup (h : Found known cs) : (cs.map (·.name)).Nodup := by
  induction h with
  | nil => exact List.nodup_nil
  | @snoc cs c _ _ hn _ ih =>
    rw [List.map_append, List.nodup_append]
    refine ⟨ih, by simp, fun x hx y hy he => hn ?_⟩
    obtain rfl : y = c.name := List.mem_singleton.mp hy
    exact he ▸ hx

theorem seen_append (hd : ∀ d ∈ ds, known d.name = none) (h : seen known cs k = some c) :
    seen known (cs ++ ds) k = some c := by
  rcases Option.or_eq_some_iff.mp h with h | ⟨hnone, h⟩
  · rw [seen, among_append h, Option.some_or]
  · have hds : among ds k = none := by
      refine among_eq_none.mpr fun hm => ?_
      obtain ⟨d, hdm, rfl⟩ := List.mem_map.mp hm
      rw [hd d hdm] at h
      cases h
    rw [among] at hnone hds
    rw [seen, among, List.find?_append, hnone, hds]
    exact h

theorem Passes.append (hd : ∀ d ∈ ds, known d.name = none) (h : c.Passes (seen known cs)) :
    c.Passes (seen known (cs ++ ds)) := by
  refine h.congr fun i hi => ?_
  obtain ⟨e, he⟩ := h.imports hi
  rw [he, seen_append hd he]

theorem Leads.append (hd : ∀ d ∈ ds, known d.name = none) {m n : String}
    (h : Leads (seen known cs) m n) : Leads (seen known (cs ++ ds)) m n := by
  induction h with
  | refl => exact .refl
  | tail _ step ih =>
    obtain ⟨c, hc, hi⟩ := step
    exact ih.tail ⟨c, seen_append hd hc, hi⟩

theorem Found.passes (h : Found known cs) : ∀ c ∈ cs, c.Passes (seen known cs) := by
  induction h with
  | nil => nofun
  | @snoc cs c _ hp _ hk ih =>
    have hlast : ∀ d ∈ [c], known d.name = none := by simpa using hk
    intro d hd
    rcases List.mem_append.mp hd with hd | hd
    · exact (ih d hd).append hlast
    · rw [List.mem_singleton.mp hd]
      exact hp.append hlast

end

end ModuleCode

namespace Program

/-- Exports are those of the module, and a failure has something to say. -/
def Import.Faithful (code? : String → Option ModuleCode) (mod : String) : Import → Prop
  | exports names => ∃ c, code? mod = some c ∧ names = c.exports
  | unknown => True
  | failed ds => ds ≠ []

theorem nodup_imports (ps : List Piece) : ((imports ps).map (·.2.2)).Nodup := by
  unfold imports
  generalize ps.flatMap (·.imports) = is
  have step : ∀ (is seen : List (String × Pos × String)), (seen.map (·.2.2)).Nodup →
      ((is.foldl (fun seen i => if seen.any (·.2.2 == i.2.2) then seen else seen ++ [i]) seen).map
        (·.2.2)).Nodup := by
    intro is
    induction is with
    | nil => exact fun seen h => h
    | cons i is ih =>
      intro seen h
      refine ih _ ?_
      simp only
      split
      · exact h
      · rename_i hany
        rw [List.map_append, List.nodup_append]
        refine ⟨h, by simp, fun x hx y hy he => hany ?_⟩
        obtain ⟨j, hj, rfl⟩ := List.mem_map.mp hx
        rw [List.any_eq_true]
        refine ⟨j, hj, ?_⟩
        rw [he, List.mem_singleton.mp hy, beq_self_eq_true]
  exact step is [] List.nodup_nil

/-- A program passes against the imports only if all of them are there. -/
theorem check_faithful {code? : String → Option ModuleCode} {name : String} {ps : List Piece}
    {imported : Table Import} {c : ModuleCode} (h : check name ps imported = .ok c)
    (hn : imported.names = (imports ps).map (·.2.2))
    (hf : ∀ p ∈ imported, p.2.Faithful code? p.1) :
    imported = importsAmong code? ps ∧ ∀ p ∈ imported, ∃ names, p.2 = .exports names := by
  obtain ⟨_, hd, _⟩ := check_ok h
  have hentry : ∀ p ∈ imported, p.2 = importOf code? p.1 ∧ ∃ names, p.2 = .exports names := by
    rintro ⟨mod, i⟩ hp
    have hmod : mod ∈ (imports ps).map (·.2.2) := hn ▸ List.mem_map_of_mem hp
    obtain ⟨q, hq, rfl⟩ := List.mem_map.mp hmod
    have hdiag := hd q hq
    rw [Table.get?_of_mem (hn ▸ nodup_imports ps) hp, Option.getD_some] at hdiag
    have hfaith := hf _ hp
    cases i with
    | exports names =>
      obtain ⟨c, hc, rfl⟩ := hfaith
      exact ⟨by simp [importOf, hc], _, rfl⟩
    | unknown => cases hdiag
    | failed ds => cases ds <;> cases hdiag
  refine ⟨?_, fun p hp => (hentry p hp).2⟩
  calc imported = imported.map fun p => (p.1, importOf code? p.1) := by
        refine (List.map_id imported).symm.trans (List.map_congr_left fun p hp => ?_)
        rw [← (hentry p hp).1]
        rfl
    _ = imported.names.map fun mod => (mod, importOf code? mod) := by simp [Table.names]
    _ = importsAmong code? ps := by simp [hn, importsAmong]

theorem check_error {name : String} {ps : List Piece} {imported : Table Import}
    {ds : List Diagnostic} (h : check name ps imported = .error ds) : ds ≠ [] := by
  unfold check at h
  simp only at h
  split at h
  · cases h
  · rename_i hne
    cases h
    intro he
    have := congrArg List.length he
    rw [Diagnostic.sort, List.length_mergeSort] at this
    exact hne (List.isEmpty_iff.mpr (List.eq_nil_of_length_eq_zero this))

end Program

/-! ## The search -/

namespace Interpreter

open ModuleCode

/-- What has been found has passed. -/
structure Search.Good (known : String → Option ModuleCode) (s : Search) : Prop where
  cache : s.cache.All IsReading
  found : Found known s.found

/-- More has been found, but none of the modules in `resolving`. -/
structure Search.Finds (known : String → Option ModuleCode) (resolving : List String)
    (s s' : Search) : Prop where
  good : s'.Good known
  more : ∃ new, s'.found = s.found ++ new ∧ ∀ c ∈ new, c.name ∉ resolving

/-- Imports lead to all that has been found from one of `roots`. -/
def Search.Led (known : String → Option ModuleCode) (roots : List String) (s s' : Search) : Prop :=
  ∀ c ∈ s'.found, c ∈ s.found ∨ ∃ r ∈ roots, Leads (seen known s'.found) r c.name

section
variable {known : String → Option ModuleCode} {resolving : List String} {s s' s'' : Search}

theorem Search.Finds.refl (h : s.Good known) : Search.Finds known resolving s s :=
  ⟨h, [], (List.append_nil _).symm, nofun⟩

theorem Search.Finds.trans (h : Search.Finds known resolving s s') (h' : Search.Finds known resolving s' s'') :
    Search.Finds known resolving s s'' := by
  obtain ⟨new, hn, hr⟩ := h.more
  obtain ⟨new', hn', hr'⟩ := h'.more
  refine ⟨h'.good, new ++ new', by rw [hn', hn, List.append_assoc], fun c hc => ?_⟩
  exact (List.mem_append.mp hc).elim (hr c) (hr' c)

theorem Search.Finds.unknown (h : Search.Finds known resolving s s') {new : List ModuleCode}
    (hn : s'.found = s.found ++ new) : ∀ d ∈ new, known d.name = none :=
  fun d hd => h.good.found.unknown d (hn ▸ List.mem_append_right _ hd)

theorem Search.Finds.seen (h : Search.Finds known resolving s s') {k : String} {c : ModuleCode}
    (hk : seen known s.found k = some c) : ModuleCode.seen known s'.found k = some c := by
  obtain ⟨new, hn, _⟩ := h.more
  have hd := h.unknown hn
  rw [hn]
  exact seen_append hd hk

theorem Search.Finds.leads (h : Search.Finds known resolving s s') {m n : String}
    (hl : Leads (ModuleCode.seen known s.found) m n) :
    Leads (ModuleCode.seen known s'.found) m n := by
  obtain ⟨new, hn, _⟩ := h.more
  have hd := h.unknown hn
  rw [hn]
  exact hl.append hd

theorem Search.Finds.faithful (h : Search.Finds known resolving s s') {mod : String}
    {i : Program.Import} (hi : i.Faithful (ModuleCode.seen known s.found) mod) :
    i.Faithful (ModuleCode.seen known s'.found) mod := by
  cases i with
  | exports names =>
    obtain ⟨c, hc, hn⟩ := hi
    exact ⟨c, h.seen hc, hn⟩
  | _ => exact hi

/-- What has become of an import, and what has been found for it. -/
structure Resolved (known : String → Option ModuleCode) (resolving : List String) (s : Search)
    (mod : String) (i : Program.Import) (s' : Search) : Prop where
  finds : Search.Finds known resolving s s'
  faithful : i.Faithful (seen known s'.found) mod
  led : ∀ names, i = .exports names → Search.Led known [mod] s s'

/-- The modules in `resolving` are being resolved. -/
def Resolves (known : String → Option ModuleCode) (resolving : List String)
    (resolve : String → StateM Search Program.Import) : Prop :=
  ∀ mod s, s.Good known → Resolved known resolving s mod ((resolve mod).run s).1 ((resolve mod).run s).2

variable {resolve : String → StateM Search Program.Import}

theorem run_importAll (resolve : String → StateM Search Program.Import) (p : String × Pos × String)
    (is : List (String × Pos × String)) (s : Search) :
    (importAll resolve (p :: is)).run s =
      ((p.2.2, ((resolve p.2.2).run s).1) ::
        ((importAll resolve is).run ((resolve p.2.2).run s).2).1,
        ((importAll resolve is).run ((resolve p.2.2).run s).2).2) := rfl

/-- All imports have been resolved. -/
structure Imported (known : String → Option ModuleCode) (resolving : List String) (s : Search)
    (is : List (String × Pos × String)) (imported : Table Program.Import) (s' : Search) : Prop where
  finds : Search.Finds known resolving s s'
  names : imported.names = is.map (·.2.2)
  faithful : ∀ p ∈ imported, p.2.Faithful (seen known s'.found) p.1
  led : (∀ p ∈ imported, ∃ names, p.2 = .exports names) → Search.Led known (is.map (·.2.2)) s s'

theorem imported_importAll (hr : Resolves known resolving resolve)
    (is : List (String × Pos × String)) : ∀ s : Search, s.Good known →
      Imported known resolving s is ((importAll resolve is).run s).1 ((importAll resolve is).run s).2 := by
  induction is with
  | nil => exact fun s hs => ⟨.refl hs, rfl, nofun, fun _ c hc => .inl hc⟩
  | cons p is ih =>
    intro s hs
    have h₁ := hr p.2.2 s hs
    have h₂ := ih _ h₁.finds.good
    rw [run_importAll]
    generalize (resolve p.2.2).run s = q at h₁ h₂ ⊢
    generalize (importAll resolve is).run q.2 = q' at h₂ ⊢
    refine ⟨h₁.finds.trans h₂.finds, ?_, fun a ha => ?_, fun hall c hc => ?_⟩
    · rw [Table.names, List.map_cons, List.map_cons]
      exact congrArg _ h₂.names
    · rcases List.mem_cons.mp ha with rfl | ha
      · exact h₂.finds.faithful h₁.faithful
      · exact h₂.faithful a ha
    · rw [List.map_cons]
      rcases h₂.led (fun a ha => hall a (List.mem_cons_of_mem _ ha)) c hc with hc | ⟨r, hr, hl⟩
      · obtain ⟨names, hn⟩ := hall _ List.mem_cons_self
        rcases h₁.led names hn c hc with hc | ⟨r, hr, hl⟩
        · exact .inl hc
        · obtain rfl := List.mem_singleton.mp hr
          exact .inr ⟨_, List.mem_cons_self, h₂.finds.leads hl⟩
      · exact .inr ⟨r, List.mem_cons_of_mem _ hr, hl⟩

/-- What has become of pieces that were checked as one module. -/
structure Compiled (known : String → Option ModuleCode) (resolving : List String) (s : Search)
    (name : String) (ps : List Piece) (r : Except (List Diagnostic) ModuleCode) (s' : Search) :
    Prop where
  finds : Search.Finds known resolving s s'
  error : ∀ ds, r = .error ds → ds ≠ []
  ok : ∀ c, r = .ok c → c.name = name ∧
    Program.check name ps (Program.importsAmong (seen known s'.found) ps) = .ok c ∧
    Search.Led known c.imports s s'

theorem compiled_compile (hr : Resolves known resolving resolve) (name : String) (ps : List Piece)
    (hs : s.Good known) :
    Compiled known resolving s name ps ((compile resolve name ps).run s).1
      ((compile resolve name ps).run s).2 := by
  have h := imported_importAll hr (Program.imports ps) s hs
  change Compiled known resolving s name ps
    (Program.check name ps ((importAll resolve (Program.imports ps)).run s).1)
    ((importAll resolve (Program.imports ps)).run s).2
  generalize (importAll resolve (Program.imports ps)).run s = q at h ⊢
  refine ⟨h.finds, fun ds => Program.check_error, fun c hc => ?_⟩
  obtain ⟨himported, hall⟩ := Program.check_faithful hc h.names h.faithful
  have he := (Program.check_ok hc).1
  refine ⟨by rw [he], ?_, ?_⟩
  · rw [← himported]
    exact hc
  · have himports : c.imports = (Program.imports ps).map (·.2.2) := by rw [he]
    rw [himports]
    exact h.led hall

/-- A module in a file, which has not been found yet. -/
theorem resolved_compileFile {file : SourceFile}
    (hr : Resolves known (file.name :: resolving) resolve) (hs : s.Good known)
    (hn : file.name ∉ s.found.map (·.name)) (hk : known file.name = none)
    (hres : file.name ∉ resolving) :
    Resolved known resolving s file.name ((compileFile resolve file).run s).1
      ((compileFile resolve file).run s).2 := by
  obtain ⟨hread, hcache⟩ := isReading_readModule hs.cache file.path file.text
  unfold compileFile
  simp only [StateT.run_bind, StateT.run_get, StateT.run_set, pure_bind]
  generalize readModule file.path file.text s.cache = q at hread hcache ⊢
  obtain ⟨parsed, cache⟩ := q
  simp only at hread hcache ⊢
  have hs₁ : Search.Good known { s with cache } := ⟨hcache, hs.found⟩
  have hf₁ : Search.Finds known resolving s { s with cache } := ⟨hs₁, [], (List.append_nil _).symm, nofun⟩
  cases parsed with
  | error es =>
    refine ⟨hf₁, ?_, nofun⟩
    intro he
    exact hread.error_ne_nil (List.map_eq_nil_iff.mp he)
  | ok f =>
    cases f with
    | definitions ds => exact ⟨hf₁, trivial, nofun⟩
    | expression e => exact ⟨hf₁, trivial, nofun⟩
    | module m =>
      simp only
      split
      · exact ⟨hf₁, nofun, nofun⟩
      · have ht : ∀ p ∈ [(⟨file.path, m.decls⟩ : Piece)], p.Tidy := by
          intro p hp
          rw [List.mem_singleton.mp hp]
          exact hread.tidy
        have hc := compiled_compile hr file.name [⟨file.path, m.decls⟩] hs₁
        simp only [StateT.run_bind]
        generalize (compile resolve file.name [⟨file.path, m.decls⟩]).run { s with cache } = q at hc ⊢
        obtain ⟨r, s₂⟩ := q
        obtain ⟨new, hnew, hres'⟩ := hc.finds.more
        have hf₂ : Search.Finds known resolving s s₂ :=
          ⟨hc.finds.good, new, hnew, fun c hm hmem => hres' c hm (List.mem_cons_of_mem _ hmem)⟩
        cases r with
        | error ds => exact ⟨hf₂, hc.error ds rfl, nofun⟩
        | ok code =>
          obtain ⟨hname, hcheck, hled⟩ := hc.ok code rfl
          have hpass : code.Passes (seen known s₂.found) := ⟨_, ht, hname ▸ hcheck⟩
          -- nothing of this name has come in while its imports were resolved
          have hfresh : code.name ∉ s₂.found.map (·.name) := by
            rw [hname, hnew, List.map_append, List.mem_append, not_or]
            refine ⟨hn, fun hm => ?_⟩
            obtain ⟨c, hcm, hcn⟩ := List.mem_map.mp hm
            exact hres' c hcm (hcn ▸ List.mem_cons_self)
          have hk' : known code.name = none := hname ▸ hk
          have hlast : ∀ d ∈ [code], known d.name = none := by simpa using hk'
          have hcode : seen known (s₂.found ++ [code]) file.name = some code := by
            rw [seen, among_snoc (hname ▸ hfresh) hname, Option.some_or]
          have hfound := hc.finds.good.found.snoc hpass hfresh hk'
          refine ⟨⟨⟨hc.finds.good.cache, hfound⟩, new ++ [code], ?_, fun c hm => ?_⟩, ?_, ?_⟩
          · rw [← List.append_assoc, ← hnew]
            rfl
          · rcases List.mem_append.mp hm with hm | hm
            · exact fun hmem => hres' c hm (List.mem_cons_of_mem _ hmem)
            · rw [List.mem_singleton.mp hm, hname]
              exact hres
          · exact ⟨code, hcode, rfl⟩
          · intro _ _ c hm
            refine (List.mem_append.mp hm).elim (fun hm => ?_) fun hm => .inr ?_
            · rcases hled c hm with hm | ⟨r, hr, hl⟩
              · exact .inl hm
              · exact .inr ⟨_, List.mem_cons_self, .head ⟨code, hcode, hr⟩ (hl.append hlast)⟩
            · rw [List.mem_singleton.mp hm, hname]
              exact ⟨_, List.mem_cons_self, .refl⟩

theorem find_name {locator : Locator} {name : String} {file : SourceFile}
    (h : locator.find name = .ok file) : file.name = name := by
  rcases Locator.find_ok h with ⟨_, -, rfl⟩ | ⟨-, _, _, -, -, rfl⟩ <;> rfl

theorem resolves_resolve (locator : Locator) (known : String → Option ModuleCode) (fuel : Nat) :
    ∀ resolving, Resolves known resolving (Interpreter.resolve locator known fuel resolving) := by
  induction fuel with
  | zero => exact fun _ _ s hs => ⟨.refl hs, nofun, nofun⟩
  | succ fuel ih =>
    intro resolving mod s hs
    unfold Interpreter.resolve
    simp only [StateT.run_bind, StateT.run_get, pure_bind]
    split
    · rename_i code hcode
      refine ⟨.refl hs, ⟨code, ?_, rfl⟩, fun _ _ c hc => .inl hc⟩
      exact Option.or_eq_some_iff.mpr (.inl hcode)
    · rename_i hnone
      split
      · rename_i code hcode
        refine ⟨.refl hs, ⟨code, ?_, rfl⟩, fun _ _ c hc => .inl hc⟩
        exact Option.or_eq_some_iff.mpr (.inr ⟨hnone, hcode⟩)
      · rename_i hknown
        split
        · exact ⟨.refl hs, nofun, nofun⟩
        · rename_i hres
          have hres' : mod ∉ resolving := by simpa using hres
          split
          · rename_i file hfile
            obtain rfl := find_name hfile
            exact resolved_compileFile (ih _) hs (among_eq_none.mp hnone) hknown hres'
          · refine ⟨.refl hs, ?_, ?_⟩
            · split
              · trivial
              · nofun
            · split <;> nofun

/-! ### What a search keeps -/

/-- Neither reading a module nor taking in one that was located and read puts an end to `I`. -/
structure Search.Stable (locator : Locator) (I : Search → Prop) : Prop where
  read (s : Search) (source text : String) :
    I s → I { s with cache := (readModule source text s.cache).2 }
  found (s s' : Search) (c : ModuleCode) (file : SourceFile) (m : Module) :
    locator.find c.name = .ok file → I s →
    (readModule file.path file.text s.cache).1 = .ok (.module m) →
    c.defs = Program.definitions [⟨file.path, m.decls⟩] →
    I s' → I { s' with found := s'.found ++ [c] }

/-- What holds before an import is resolved holds afterwards. -/
def Kept (I : Search → Prop) (resolve : String → StateM Search Program.Import) : Prop :=
  ∀ mod s, I s → I ((resolve mod).run s).2

variable {I : Search → Prop}

theorem Kept.importAll (hr : Kept I resolve) (is : List (String × Pos × String)) :
    ∀ s : Search, I s → I ((Interpreter.importAll resolve is).run s).2 := by
  induction is with
  | nil => intro s hs; exact hs
  | cons p is ih =>
    intro s hs
    rw [run_importAll]
    exact ih _ (hr p.2.2 s hs)

theorem Kept.compile (hr : Kept I resolve) (name : String) (ps : List Piece) (hs : I s) :
    I ((Interpreter.compile resolve name ps).run s).2 :=
  hr.importAll (Program.imports ps) s hs

theorem Kept.compileFile {locator : Locator} (hI : Search.Stable locator I) (hr : Kept I resolve)
    {file : SourceFile} (hfile : locator.find file.name = .ok file) (hs : I s) :
    I ((Interpreter.compileFile resolve file).run s).2 := by
  have hread := hI.read s file.path file.text hs
  have hfound := fun s' c m => hI.found s s' c file m
  unfold Interpreter.compileFile
  simp only [StateT.run_bind, StateT.run_get, StateT.run_set, pure_bind]
  generalize readModule file.path file.text s.cache = q at hread hfound ⊢
  obtain ⟨parsed, cache⟩ := q
  simp only at hread hfound ⊢
  split
  · exact hread
  · rename_i m
    split
    · exact hread
    · have hc := hr.compile file.name [⟨file.path, m.decls⟩] hread
      have hcode : ∀ c, ((Interpreter.compile resolve file.name [⟨file.path, m.decls⟩]).run
          { s with cache }).1 = .ok c →
          c.name = file.name ∧ c.defs = Program.definitions [⟨file.path, m.decls⟩] := by
        intro c hc
        rw [(Program.check_ok hc).1]
        exact ⟨rfl, rfl⟩
      simp only [StateT.run_bind]
      generalize (Interpreter.compile resolve file.name [⟨file.path, m.decls⟩]).run
        { s with cache } = q at hc hcode ⊢
      obtain ⟨r, s₂⟩ := q
      cases r with
      | error ds => exact hc
      | ok c =>
        obtain ⟨hname, hdefs⟩ := hcode c rfl
        exact hfound s₂ c m (by rw [hname]; exact hfile) hs rfl hdefs hc
  · exact hread

theorem kept_resolve {locator : Locator} (hI : Search.Stable locator I)
    (known : String → Option ModuleCode) (fuel : Nat) :
    ∀ resolving, Kept I (Interpreter.resolve locator known fuel resolving) := by
  induction fuel with
  | zero => intro _ _ s hs; exact hs
  | succ fuel ih =>
    intro resolving mod s hs
    unfold Interpreter.resolve
    simp only [StateT.run_bind, StateT.run_get, pure_bind]
    split
    · exact hs
    · split
      · exact hs
      · split
        · exact hs
        · split
          · rename_i file hfile
            obtain rfl := find_name hfile
            exact (ih _).compileFile hI hfile hs
          · exact hs

end

end Interpreter

end LazySession

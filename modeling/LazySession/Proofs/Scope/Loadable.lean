import LazySession.Proofs.Scope.WellFormed
import Mathlib.Data.List.Nodup
import Mathlib.Data.List.Perm.Subperm

/-!
# Which modules an import can be of

`Interpreter.Loadable`: the modules that are known, and all others that have a source which passes
with what it imports, are those that an import can be of. `Interpreter.resolve_loadable`: the search
for an import ends, it finds exactly these, and what it comes to does not depend on what was looked
for before.
-/

namespace LazySession

namespace Interpreter

open ModuleCode (among)
open Program (modules resolved)

/-! ## Loadable modules -/

/-- The source of a module, if it can be read and declares the name it was found under. -/
def source? (locator : Locator) (n : String) : Option Piece :=
  match locator.find n with
  | .error _ => none
  | .ok file => match Module.ofText file.path file.text with
    | .error _ => none
    | .ok m => if m.name = n then some ⟨file.path, m.decls⟩ else none

section
variable (locator : Locator) (known : String → Option ModuleCode)

/-- What a module exports: a known one what its code has, another one what its source binds. -/
def exportsOf (n : String) : List String :=
  match known n, source? locator n with
  | some c, _ => c.exports
  | none, some p => (Program.definitions [p]).map (·.binding.name)
  | none, none => []

/-- The exports of all that a program imports. -/
def importsOf (ps : List Piece) : Table (List String) :=
  (modules ps).map fun i => (i, exportsOf locator known i)

/-- The least set of names that has the known modules, and every module whose source passes the
checks while all that it imports is in the set. -/
inductive Loadable : String → Prop
  | known {n : String} {c : ModuleCode} (h : known n = some c) : Loadable n
  | source {n : String} {p : Piece} {c : ModuleCode} (hp : source? locator n = some p)
    (hi : ∀ i ∈ modules [p], Loadable i)
    (hc : Program.check n [p] (resolved (importsOf locator known [p])) = .ok c) : Loadable n

/-- The source of `n` imports `i`, and has to be looked at. -/
def Wants (n i : String) : Prop := known n = none ∧ ∃ p, source? locator n = some p ∧ i ∈ modules [p]

end

section
variable {locator : Locator} {known : String → Option ModuleCode} {n : String} {p : Piece}

theorem exportsOf_known {c : ModuleCode} (h : known n = some c) :
    exportsOf locator known n = c.exports := by
  simp [exportsOf, h]

theorem exportsOf_source {imported : Table Program.Import} {c : ModuleCode} (hk : known n = none)
    (hp : source? locator n = some p) (hc : Program.check n [p] imported = .ok c) :
    c.exports = exportsOf locator known n := by
  rw [(Program.check_ok hc).1]
  simp [exportsOf, hk, hp, ModuleCode.exports]

theorem source?_eq_some : source? locator n = some p ↔ ∃ file m, locator.find n = .ok file ∧
    Module.ofText file.path file.text = .ok m ∧ m.name = n ∧ p = ⟨file.path, m.decls⟩ := by
  unfold source?
  cases locator.find n with
  | error e => simp
  | ok file =>
    cases hm : Module.ofText file.path file.text with
    | error es => simp [hm]
    | ok m =>
      by_cases hn : m.name = n
      · simp [hm, hn, eq_comm]
      · simp [hm, hn]

theorem Loadable.acyclic (h : Loadable locator known n) :
    ¬ Relation.TransGen (Wants locator known) n n := by
  induction h with
  | known h =>
    intro hcycle
    obtain ⟨_, ⟨hk, -⟩, -⟩ := Relation.TransGen.head'_iff.mp hcycle
    rw [h] at hk
    cases hk
  | source hp _ _ ih =>
    intro hcycle
    obtain ⟨m, ⟨hk, q, hq, hm⟩, hback⟩ := Relation.TransGen.head'_iff.mp hcycle
    obtain rfl := Option.some.inj (hp.symm.trans hq)
    exact ih m hm (Relation.TransGen.tail' hback ⟨hk, _, hp, hm⟩)

/-! ## Names and sources -/

theorem not_mem_moduleName {z : Char} (hz : Lexeme.Foreign z) {source text : String} {m : Module}
    (h : Module.ofText source text = .ok m) : z ∉ m.name.toList := by
  unfold Module.ofText at h
  split at h
  · cases h
  · rename_i tokens stop hlex
    have htokens : ∀ t ∈ tokens, Lacks z t := lacks_tokens hz hlex
    split at h
    · cases h
    · split at h
      · unfold Module.ofTokens at h
        split at h
        · cases h
        · rename_i pos name c hheader
          generalize Decl.ofItems source (Item.split c.toks) = r at h
          cases r <;> cases h
          have header : Reader.Gives (Lacks z) (z ∉ ·.2.toList) Grammar.moduleHeader := by
            refine Reader.gives_bind (Reader.gives_expect _ _) fun _ _ => ?_
            refine Reader.gives_bind (Reader.gives_expect _ _) fun t ⟨hk, ht⟩ => ?_
            refine Reader.gives_bind (Reader.gives_expect _ _) fun _ _ => Reader.gives_pure ?_
            exact ht.resolve_right (by simp [hk]) hk
          exact (header _ _ _ htokens hheader).1
      · cases h

theorem plain_source (h : source? locator n = some p) : ∀ i ∈ modules [p], Plain i := by
  obtain ⟨file, m, -, hm, -, rfl⟩ := source?_eq_some.mp h
  have hplain : PlainPieces [⟨file.path, m.decls⟩] :=
    List.forall_mem_singleton.mpr (Module.each_ofText reads_plainImport (fun _ => plain_tokens) hm)
  intro i hi
  rw [← Program.names_imports] at hi
  obtain ⟨q, hq, rfl⟩ := List.mem_map.mp hi
  exact plain_imports hplain q hq

end

end Interpreter

/-! ## There are enough sources -/

namespace Locator

theorem size_eq (l : Locator) :
    l.size = l.overlay.length + (l.roots.flatMap (·.tree.files)).length := by
  have step : ∀ (roots : List Root) (n : Nat),
      roots.foldl (fun n r => n + r.tree.files.length) n =
        n + (roots.flatMap (·.tree.files)).length := by
    intro roots
    induction roots with
    | nil => simp
    | cons r roots ih => simp [ih, Nat.add_assoc]
  exact step l.roots _

theorem mem_of_findIn {path text : String} {roots : List Root}
    (h : findIn path roots = .ok (some text)) :
    path ∈ (roots.flatMap (·.tree.files)).map (·.1) := by
  induction roots with
  | nil => cases h
  | cons r roots ih =>
    rw [List.flatMap_cons, List.map_append, List.mem_append]
    unfold findIn at h
    cases hread : r.tree.read path with
    | ok content =>
      unfold FileTree.read at hread
      split at hread
      · cases hread
      · rename_i hget
        exact .inl (Table.get?_isSome.mp (by rw [hget]; rfl))
      · split at hread
        · cases hread
        · split at hread <;> cases hread
    | error fault =>
      rw [hread] at h
      cases fault with
      | missing => exact .inr (ih h)
      | _ => cases h

theorem find_cases {l : Locator} {name : String} {file : SourceFile}
    (h : l.find name = .ok file) : name ∈ l.overlay.names ∨
      l.pathOf name ∈ (l.roots.flatMap (·.tree.files)).map (·.1) := by
  rcases find_ok h with ⟨_, hget, -⟩ | ⟨-, path, text, hpath, hfound, -⟩
  · exact .inl (Table.get?_isSome.mp (by rw [hget]; rfl))
  · exact .inr ((filePath_ok hpath).1 ▸ mem_of_findIn hfound)

theorem length_le_size {l : Locator} {names : List String} (hn : names.Nodup)
    (hs : ∀ n ∈ names, (Interpreter.source? l n).isSome) : names.length ≤ l.size := by
  have hslash : ∀ n ∈ names, '/' ∉ n.toList ∧ ∃ file, l.find n = .ok file := by
    intro n hn
    obtain ⟨p, hp⟩ := Option.isSome_iff_exists.mp (hs n hn)
    obtain ⟨file, m, hfile, hm, rfl, -⟩ := Interpreter.source?_eq_some.mp hp
    exact ⟨Interpreter.not_mem_moduleName (by decide) hm, file, hfile⟩
  have hgiven : (names.filter (· ∈ l.overlay.names)).length ≤ l.overlay.length := by
    have hsub : names.filter (· ∈ l.overlay.names) ⊆ l.overlay.names := by
      intro n hn
      simpa using (List.mem_filter.mp hn).2
    have hle := (List.subperm_of_subset (hn.filter _) hsub).length_le
    rwa [Table.names, List.length_map] at hle
  have hfiles : (names.filter (fun n => !decide (n ∈ l.overlay.names))).length ≤
      (l.roots.flatMap (·.tree.files)).length := by
    have hsub : (names.filter (fun n => !decide (n ∈ l.overlay.names))).map l.pathOf ⊆
        (l.roots.flatMap (·.tree.files)).map (·.1) := by
      intro path hpath
      obtain ⟨n, hn, rfl⟩ := List.mem_map.mp hpath
      obtain ⟨hn, hnot⟩ := List.mem_filter.mp hn
      obtain ⟨-, file, hfile⟩ := hslash n hn
      exact (find_cases hfile).resolve_left (by simpa using hnot)
    have hnodup : ((names.filter (fun n => !decide (n ∈ l.overlay.names))).map l.pathOf).Nodup := by
      refine List.Nodup.map_on (fun m hm n hn he => ?_) (hn.filter _)
      exact pathOf_inj (hslash m (List.mem_filter.mp hm).1).1 (hslash n (List.mem_filter.mp hn).1).1 he
    simpa using (List.subperm_of_subset hnodup hsub).length_le
  have hsplit := List.length_eq_length_filter_add (l := names) (· ∈ l.overlay.names)
  rw [size_eq]
  omega

end Locator

/-! ## The search without a bound -/

namespace Interpreter

open ModuleCode (among among_eq_none mem_of_among)
open Program (modules resolved)

section
variable (locator : Locator) (known : String → Option ModuleCode)

/-- One step of the search: what is imported besides is left to `visit`. -/
def look (visit : List String → String → StateM Search Program.Import) (resolving : List String)
    (n : String) : StateM Search Program.Import := do
  match (← get).found.find? (·.name == n) with
  | some code => return .exports code.exports
  | none => match known n with
    | some code => return .exports code.exports
    | none =>
      if resolving.contains n then return .failed [.unplaced (.importCycle n)]
      else match locator.find n with
        | .ok file => compileFile (visit (n :: resolving)) file
        | .error e => return if e.isNotFound then .unknown else .failed [.unplaced (.unlocated e)]

/-- The search up to some depth, from where on `stop` takes over. -/
def searchTo (stop : List String → String → StateM Search Program.Import) :
    (depth : Nat) → List String → String → StateM Search Program.Import
  | 0 => stop
  | depth + 1 => look locator known (searchTo stop depth)

theorem resolve_eq (fuel : Nat) : resolve locator known fuel =
    searchTo locator known (fun _ n => return .failed [.unplaced (.importCycle n)]) fuel := by
  induction fuel with
  | zero => rfl
  | succ fuel ih =>
    rw [searchTo, ← ih]
    rfl

end

section
variable {locator : Locator} {known : String → Option ModuleCode} {n : String} {p : Piece}
variable {resolving : List String} {s : Search}
variable {visit visit' : List String → String → StateM Search Program.Import}

theorem run_look_found {c : ModuleCode} (h : among s.found n = some c) :
    (look locator known visit resolving n).run s = (.exports c.exports, s) := by
  rw [among] at h
  simp only [look, StateT.run_bind, StateT.run_get, pure_bind, h]
  rfl

theorem run_look_known {c : ModuleCode} (h : among s.found n = none) (hk : known n = some c) :
    (look locator known visit resolving n).run s = (.exports c.exports, s) := by
  rw [among] at h
  simp only [look, StateT.run_bind, StateT.run_get, pure_bind, h, hk]
  rfl

theorem run_look_cycle (h : among s.found n = none) (hk : known n = none) (hr : n ∈ resolving) :
    (look locator known visit resolving n).run s =
      (.failed [.unplaced (.importCycle n)], s) := by
  rw [among] at h
  simp only [look, StateT.run_bind, StateT.run_get, pure_bind, h, hk]
  rw [if_pos (by simpa using hr)]
  rfl

theorem run_look_unlocated (h : among s.found n = none) (hk : known n = none)
    (hr : n ∉ resolving) {e : LocateError} (he : locator.find n = .error e) :
    (look locator known visit resolving n).run s =
      (if e.isNotFound then .unknown else .failed [.unplaced (.unlocated e)], s) := by
  rw [among] at h
  simp only [look, StateT.run_bind, StateT.run_get, pure_bind, h, hk]
  rw [if_neg (by simpa using hr), he]
  rfl

theorem run_look_located (h : among s.found n = none) (hk : known n = none) (hr : n ∉ resolving)
    {file : SourceFile} (hf : locator.find n = .ok file) :
    (look locator known visit resolving n).run s =
      (compileFile (visit (n :: resolving)) file).run s := by
  rw [among] at h
  simp only [look, StateT.run_bind, StateT.run_get, pure_bind, h, hk]
  rw [if_neg (by simpa using hr), hf]

/-- The module in a file, once it has been read. -/
def finishFile (resolve : String → StateM Search Program.Import) (file : SourceFile) :
    Except (List SyntaxError) Module → StateM Search Program.Import
  | .error es => return .failed (es.map .ofSyntaxError)
  | .ok m =>
    if m.name ≠ file.name then
      return .failed [⟨file.path, m.pos, .misplacedModule m.name file.name⟩]
    else do
      match ← compile resolve file.name [⟨file.path, m.decls⟩] with
      | .error ds => return .failed ds
      | .ok code =>
        modify fun s => { s with found := s.found ++ [code] }
        return .exports code.exports

/-- A file is read as if there were no cache. -/
theorem run_compileFile (resolve : String → StateM Search Program.Import) {file : SourceFile}
    (hs : Truthful s.cache) (hf : Plain file.path) : (compileFile resolve file).run s =
      (finishFile resolve file (Module.ofText file.path file.text)).run
        { s with cache := (readModule file.path file.text s.cache).2 } := by
  obtain ⟨he, -⟩ := truthful_readModule hs hf file.text
  unfold compileFile
  simp only [StateT.run_bind, StateT.run_get, StateT.run_set, pure_bind]
  rw [he]
  cases Module.ofText file.path file.text <;> rfl

/-! ## The bound is not reached -/

/-- The modules in `resolving` are being resolved, and this is what they have led to. -/
structure Below (locator : Locator) (known : String → Option ModuleCode) (resolving : List String)
    (n : String) : Prop where
  nodup : resolving.Nodup
  leads : ∀ r ∈ resolving, Relation.TransGen (Wants locator known) r n

theorem below_nil : Below locator known [] n := ⟨List.nodup_nil, nofun⟩

theorem Below.cons (h : Below locator known resolving n) (hn : n ∉ resolving) {i : String}
    (hw : Wants locator known n i) : Below locator known (n :: resolving) i where
  nodup := List.nodup_cons.mpr ⟨hn, h.nodup⟩
  leads := List.forall_mem_cons.mpr ⟨.single hw, fun r hr => (h.leads r hr).tail hw⟩

theorem Below.length_le (h : Below locator known resolving n) : resolving.length ≤ locator.size := by
  refine Locator.length_le_size h.nodup fun r hr => ?_
  obtain ⟨_, ⟨-, p, hp, -⟩, -⟩ := Relation.TransGen.head'_iff.mp (h.leads r hr)
  rw [hp]
  rfl

/-- What a file imports is wanted by its module. -/
theorem wants_of_file {file : SourceFile} {m : Module} (hk : known n = none)
    (hf : locator.find n = .ok file) (hm : Module.ofText file.path file.text = .ok m)
    (hn : m.name = n) : source? locator n = some ⟨file.path, m.decls⟩ ∧
      ∀ i ∈ modules [⟨file.path, m.decls⟩], Wants locator known n i := by
  have hp := source?_eq_some.mpr ⟨file, m, hf, hm, hn, rfl⟩
  exact ⟨hp, fun i hi => ⟨hk, _, hp, hi⟩⟩

theorem truthful_resolve (fuel : Nat) (hn : Plain n) (hs : Truthful s.cache) :
    Truthful ((resolve locator known fuel resolving n).run s).2.cache :=
  (blind_resolve locator known fuel resolving n hn s s ⟨rfl, hs, hs⟩).2.left

variable {resolve resolve' : String → StateM Search Program.Import}

theorem importAll_congr {is : List (String × Pos × String)}
    (h : ∀ i ∈ is.map (·.2.2), ∀ s : Search, Truthful s.cache →
      (resolve i).run s = (resolve' i).run s ∧ Truthful ((resolve' i).run s).2.cache) :
    ∀ s : Search, Truthful s.cache → (importAll resolve is).run s = (importAll resolve' is).run s := by
  induction is with
  | nil => exact fun _ _ => rfl
  | cons i is ih =>
    intro s hs
    rw [List.map_cons, List.forall_mem_cons] at h
    obtain ⟨hone, hcache⟩ := h.1 s hs
    rw [run_importAll, run_importAll, hone, ih h.2 _ hcache]

theorem finishFile_congr {file : SourceFile} {r : Except (List SyntaxError) Module}
    (h : ∀ m, r = .ok m → m.name = file.name → ∀ i ∈ modules [⟨file.path, m.decls⟩],
      ∀ s : Search, Truthful s.cache →
        (resolve i).run s = (resolve' i).run s ∧ Truthful ((resolve' i).run s).2.cache)
    (hs : Truthful s.cache) : (finishFile resolve file r).run s = (finishFile resolve' file r).run s := by
  cases r with
  | error es => rfl
  | ok m =>
    by_cases hm : m.name = file.name
    · have hall := h m rfl hm
      rw [← Program.names_imports] at hall
      have hcompile : (compile resolve file.name [⟨file.path, m.decls⟩]).run s =
          (compile resolve' file.name [⟨file.path, m.decls⟩]).run s := by
        unfold compile
        rw [StateT.run_bind, StateT.run_bind, importAll_congr hall s hs]
      simp only [finishFile, hm, ne_eq, not_true_eq_false, if_false, StateT.run_bind, hcompile]
    · simp only [finishFile, ne_eq, hm, not_false_eq_true, if_true]

/-- A search that may go deep enough never gets to where it would be stopped. -/
theorem run_searchTo (stop : List String → String → StateM Search Program.Import) (depth : Nat) :
    ∀ {fuel : Nat} {resolving : List String} {n : String}, Below locator known resolving n → Plain n →
      locator.size + 2 ≤ depth + resolving.length → locator.size + 2 ≤ fuel + resolving.length →
      ∀ s : Search, Truthful s.cache → (searchTo locator known stop depth resolving n).run s =
        (Interpreter.resolve locator known fuel resolving n).run s := by
  induction depth with
  | zero =>
    intro fuel resolving n hb _ hdepth
    have := hb.length_le
    omega
  | succ depth ih =>
    intro fuel resolving n hb hn hdepth hfuel s hs
    obtain ⟨fuel, rfl⟩ : ∃ k, fuel = k + 1 := by
      have := hb.length_le
      exact ⟨fuel - 1, by omega⟩
    rw [resolve_eq, searchTo, searchTo, ← resolve_eq]
    cases hfound : among s.found n with
    | some c => rw [run_look_found hfound, run_look_found hfound]
    | none =>
      cases hk : known n with
      | some c => rw [run_look_known hfound hk, run_look_known hfound hk]
      | none =>
        by_cases hr : n ∈ resolving
        · rw [run_look_cycle hfound hk hr, run_look_cycle hfound hk hr]
        · cases hf : locator.find n with
          | error e => rw [run_look_unlocated hfound hk hr hf, run_look_unlocated hfound hk hr hf]
          | ok file =>
            have hplain := plain_find hn hf
            rw [run_look_located hfound hk hr hf, run_look_located hfound hk hr hf,
              run_compileFile _ hs hplain, run_compileFile _ hs hplain]
            refine finishFile_congr ?_ (truthful_readModule hs hplain file.text).2
            intro m hm hname i hi s' hs'
            obtain ⟨hp, hwants⟩ := wants_of_file hk hf hm (hname.trans (find_name hf))
            have hi' : Plain i := plain_source hp i hi
            refine ⟨ih (hb.cons hr (hwants i hi)) hi' ?_ ?_ s' hs', truthful_resolve fuel hi' hs'⟩
            · rw [List.length_cons]
              omega
            · rw [List.length_cons]
              omega

/-! ## What the search comes to -/

/-- What has been found is loadable and exports what it has to. -/
structure Search.Sound (locator : Locator) (known : String → Option ModuleCode) (s : Search) :
    Prop where
  truthful : Truthful s.cache
  found : ∀ c ∈ s.found, Loadable locator known c.name ∧ c.exports = exportsOf locator known c.name

theorem sound_fresh {cache : Cache Parsed} (h : Truthful cache) :
    Search.Sound locator known ⟨cache, []⟩ :=
  ⟨h, nofun⟩

/-- Looking for `n` comes to `i` whatever has been found before, and `i` says whether `n` is loadable
and what it exports. -/
structure Decides (locator : Locator) (known : String → Option ModuleCode)
    (visit : StateM Search Program.Import) (n : String) (i : Program.Import) : Prop where
  run : ∀ s : Search, s.Sound locator known →
    (visit.run s).1 = i ∧ (visit.run s).2.Sound locator known
  exports : ∀ names, i = .exports names ↔
    Loadable locator known n ∧ names = exportsOf locator known n

theorem decides_importAll {outcome : String → Program.Import} {is : List (String × Pos × String)}
    (h : ∀ i ∈ is.map (·.2.2), Decides locator known (resolve i) i (outcome i)) :
    ∀ s : Search, s.Sound locator known →
      ((importAll resolve is).run s).1 = (is.map (·.2.2)).map (fun i => (i, outcome i)) ∧
        ((importAll resolve is).run s).2.Sound locator known := by
  induction is with
  | nil => exact fun _ hs => ⟨rfl, hs⟩
  | cons i is ih =>
    intro s hs
    rw [List.map_cons, List.forall_mem_cons] at h
    obtain ⟨hone, hs₁⟩ := h.1.run s hs
    obtain ⟨hrest, hs₂⟩ := ih h.2 _ hs₁
    rw [run_importAll, hone, hrest]
    exact ⟨rfl, hs₂⟩

/-- It is enough to know what happens if the module has not been found yet. -/
theorem decides_look {i : Program.Import}
    (hi : ∀ names, i = .exports names ↔
      Loadable locator known n ∧ names = exportsOf locator known n)
    (hrun : ∀ s : Search, s.Sound locator known → among s.found n = none →
      ((look locator known visit resolving n).run s).1 = i ∧
        ((look locator known visit resolving n).run s).2.Sound locator known) :
    Decides locator known (look locator known visit resolving n) n i where
  run s hs := by
    cases hfound : among s.found n with
    | none => exact hrun s hs hfound
    | some c =>
      obtain ⟨hc, rfl⟩ := mem_of_among hfound
      rw [run_look_found hfound]
      exact ⟨((hi _).mpr (hs.found c hc)).symm, hs⟩
  exports := hi

theorem not_exports {i : Program.Import} (hn : ¬ Loadable locator known n)
    (hi : ∀ names, i ≠ .exports names) (names : List String) : i = .exports names ↔
      Loadable locator known n ∧ names = exportsOf locator known n :=
  ⟨fun h => absurd h (hi names), fun h => absurd h.1 hn⟩

theorem not_loadable (hk : known n = none) (hp : source? locator n = none) :
    ¬ Loadable locator known n := by
  intro h
  cases h with
  | known h =>
    rw [hk] at h
    cases h
  | source h =>
    rw [hp] at h
    cases h

theorem resolved_of_decided {ps : List Piece} {outcome : String → Program.Import}
    (h : ∀ i ∈ modules ps, outcome i = .exports (exportsOf locator known i)) :
    (modules ps).map (fun i => (i, outcome i)) = resolved (importsOf locator known ps) := by
  rw [resolved, importsOf, List.map_map]
  exact List.map_congr_left fun i hi => by rw [h i hi]; rfl

/-- A program passes if all that it imports is loadable and it passes with what that exports. -/
theorem check_decided {ps : List Piece} {name : String} {c : ModuleCode}
    {outcome : String → Program.Import} (h : ∀ i ∈ modules ps, ∀ names,
      outcome i = .exports names ↔ Loadable locator known i ∧ names = exportsOf locator known i) :
    Program.check name ps ((modules ps).map fun i => (i, outcome i)) = .ok c ↔
      (∀ i ∈ modules ps, Loadable locator known i) ∧
        Program.check name ps (resolved (importsOf locator known ps)) = .ok c := by
  constructor
  · intro hc
    have hnames : Table.names ((modules ps).map fun i => (i, outcome i)) =
        (Program.imports ps).map (·.2.2) := by
      rw [Program.names_imports, Table.names, List.map_map]
      exact List.map_id _
    have hall : ∀ i ∈ modules ps, Loadable locator known i ∧
        outcome i = .exports (exportsOf locator known i) := by
      intro i hi
      obtain ⟨names, hn⟩ := exports_of_check hc hnames (i, outcome i) (List.mem_map_of_mem hi)
      obtain ⟨hl, rfl⟩ := (h i hi names).mp hn
      exact ⟨hl, hn⟩
    rw [resolved_of_decided fun i hi => (hall i hi).2] at hc
    exact ⟨fun i hi => (hall i hi).1, hc⟩
  · rintro ⟨hl, hc⟩
    rwa [resolved_of_decided fun i hi => (h i hi _).mpr ⟨hl i hi, rfl⟩]

/-- A source passes if and only if its module is loadable. -/
theorem check_loadable {outcome : String → Program.Import} (hk : known n = none)
    (hp : source? locator n = some p)
    (h : ∀ i ∈ modules [p], ∀ names, outcome i = .exports names ↔
      Loadable locator known i ∧ names = exportsOf locator known i) :
    (∃ c, Program.check n [p] ((modules [p]).map fun i => (i, outcome i)) = .ok c) ↔
      Loadable locator known n := by
  simp only [check_decided h]
  constructor
  · exact fun ⟨c, hi, hc⟩ => .source hp hi hc
  · intro hl
    cases hl with
    | known h =>
      rw [hk] at h
      cases h
    | source hp' hi hc =>
      obtain rfl := Option.some.inj (hp.symm.trans hp')
      exact ⟨_, hi, hc⟩

/-- What becomes of a source that has been checked. -/
def outcomeOf : Except (List Diagnostic) ModuleCode → Program.Import
  | .ok c => .exports c.exports
  | .error ds => .failed ds

/-- The import comes to `i` if the file is looked at. -/
abbrev FileDecides (locator : Locator) (known : String → Option ModuleCode)
    (resolve : String → StateM Search Program.Import) (file : SourceFile) (n : String)
    (i : Program.Import) : Prop :=
  Decides locator known (finishFile resolve file (Module.ofText file.path file.text)) n i

/-- What each of the imports comes to. -/
theorem outcomes_of_decides {ps : List Piece}
    (h : ∀ i ∈ modules ps, ∃ o, Decides locator known (resolve i) i o) :
    ∃ outcome : String → Program.Import,
      ∀ i ∈ modules ps, Decides locator known (resolve i) i (outcome i) := by
  have hall : ∀ i, ∃ o, i ∈ modules ps → Decides locator known (resolve i) i o := by
    intro i
    by_cases hi : i ∈ modules ps
    · exact (h i hi).imp fun o ho _ => ho
    · exact ⟨.unknown, fun h => absurd h hi⟩
  choose outcome houtcome using hall
  exact ⟨outcome, houtcome⟩

theorem decides_source {file : SourceFile} {m : Module} (hk : known n = none)
    (hf : locator.find n = .ok file) (hm : Module.ofText file.path file.text = .ok m)
    (hname : m.name = n) (h : ∀ i ∈ modules [⟨file.path, m.decls⟩],
      ∃ o, Decides locator known (resolve i) i o) : ∃ i, FileDecides locator known resolve file n i := by
  have hp := (wants_of_file hk hf hm hname).1
  obtain ⟨outcome, hdecides⟩ := outcomes_of_decides h
  have hiff := check_loadable hk hp fun i hi => (hdecides i hi).exports
  generalize hcheck : Program.check n [⟨file.path, m.decls⟩]
    ((modules [⟨file.path, m.decls⟩]).map fun i => (i, outcome i)) = r at hiff
  have hexports : ∀ c, r = .ok c → c.exports = exportsOf locator known n :=
    fun c hc => exportsOf_source hk hp (hcheck.trans hc)
  refine ⟨outcomeOf r, fun s hs => ?_, fun names => ?_⟩
  · rw [← Program.names_imports] at hdecides hcheck
    obtain ⟨himported, hs'⟩ := decides_importAll hdecides s hs
    have hcompile : (compile resolve n [⟨file.path, m.decls⟩]).run s =
        (r, ((importAll resolve (Program.imports [⟨file.path, m.decls⟩])).run s).2) := by
      rw [← hcheck, ← himported]
      rfl
    rw [hm]
    simp only [finishFile, find_name hf, hname, ne_eq, not_true_eq_false, if_false,
      StateT.run_bind, hcompile]
    cases r with
    | error ds => exact ⟨rfl, hs'⟩
    | ok c =>
      refine ⟨rfl, hs'.truthful, fun d hd => ?_⟩
      rcases List.mem_append.mp hd with hd | hd
      · exact hs'.found d hd
      · obtain rfl := List.mem_singleton.mp hd
        have hcname : d.name = n := by rw [(Program.check_ok hcheck).1]
        rw [hcname]
        exact ⟨hiff.mp ⟨d, rfl⟩, hexports d rfl⟩
  · rw [← hiff]
    cases r with
    | error ds => exact ⟨nofun, nofun⟩
    | ok c =>
      rw [← hexports c rfl]
      exact ⟨fun h => ⟨⟨c, rfl⟩, (Program.Import.exports.inj h).symm⟩, fun h => by rw [h.2]; rfl⟩

theorem decides_file {file : SourceFile} (hk : known n = none) (hf : locator.find n = .ok file)
    (h : ∀ i, Wants locator known n i → ∃ o, Decides locator known (resolve i) i o) :
    ∃ i, FileDecides locator known resolve file n i := by
  cases hm : Module.ofText file.path file.text with
  | error es =>
    have hnot : ¬ Loadable locator known n := not_loadable hk (by simp [source?, hf, hm])
    refine ⟨.failed (es.map .ofSyntaxError), fun s hs => ?_, not_exports hnot nofun⟩
    rw [hm]
    exact ⟨rfl, hs⟩
  | ok m =>
    by_cases hname : m.name = n
    · obtain ⟨-, hwants⟩ := wants_of_file hk hf hm hname
      exact decides_source hk hf hm hname fun i hi => h i (hwants i hi)
    · have hnot : ¬ Loadable locator known n := not_loadable hk (by simp [source?, hf, hm, hname])
      refine ⟨.failed [⟨file.path, m.pos, .misplacedModule m.name file.name⟩], fun s hs => ?_,
        not_exports hnot nofun⟩
      rw [hm]
      simp only [finishFile, find_name hf, ne_eq, hname, not_false_eq_true, if_true]
      exact ⟨rfl, hs⟩

theorem decides_resolve (fuel : Nat) : ∀ {resolving : List String} {n : String},
    Below locator known resolving n → Plain n → locator.size + 2 ≤ fuel + resolving.length →
      ∃ i, Decides locator known (Interpreter.resolve locator known fuel resolving n) n i := by
  induction fuel with
  | zero =>
    intro resolving n hb _ hfuel
    have := hb.length_le
    omega
  | succ fuel ih =>
    intro resolving n hb hn hfuel
    rw [resolve_eq, searchTo, ← resolve_eq]
    cases hk : known n with
    | some c =>
      refine ⟨.exports c.exports, decides_look (fun names => ?_) fun s hs hfound => ?_⟩
      · rw [exportsOf_known hk]
        exact ⟨fun h => ⟨.known hk, (Program.Import.exports.inj h).symm⟩, fun h => by rw [h.2]⟩
      · rw [run_look_known hfound hk]
        exact ⟨rfl, hs⟩
    | none =>
      by_cases hr : n ∈ resolving
      · -- a loadable module does not lead back to itself
        have hnot : ¬ Loadable locator known n := fun h => h.acyclic (hb.leads n hr)
        refine ⟨.failed [.unplaced (.importCycle n)], decides_look (not_exports hnot nofun)
          fun s hs hfound => ?_⟩
        rw [run_look_cycle hfound hk hr]
        exact ⟨rfl, hs⟩
      · cases hf : locator.find n with
        | error e =>
          have hnot : ¬ Loadable locator known n := not_loadable hk (by simp [source?, hf])
          refine ⟨if e.isNotFound then .unknown else .failed [.unplaced (.unlocated e)],
            decides_look (not_exports hnot ?_) fun s hs hfound => ?_⟩
          · split <;> nofun
          · rw [run_look_unlocated hfound hk hr hf]
            exact ⟨rfl, hs⟩
        | ok file =>
          have hplain := plain_find hn hf
          have himports : ∀ i, Wants locator known n i → ∃ o, Decides locator known
              (Interpreter.resolve locator known fuel (n :: resolving) i) i o := by
            intro i hw
            obtain ⟨-, p, hp, hi⟩ := hw
            refine ih (hb.cons hr ⟨hk, p, hp, hi⟩) (plain_source hp i hi) ?_
            rw [List.length_cons]
            omega
          obtain ⟨i, hi⟩ := decides_file hk hf himports
          refine ⟨i, decides_look hi.exports fun s hs hfound => ?_⟩
          rw [run_look_located hfound hk hr hf, run_compileFile _ hs.truthful hplain]
          exact hi.run _ ⟨(truthful_readModule hs.truthful hplain file.text).2, hs.found⟩

theorem sound_importAll {is : List (String × Pos × String)} (h : ∀ i ∈ is, Plain i.2.2)
    (hs : s.Sound locator known) :
    ((importAll (Interpreter.resolve locator known (locator.size + 2) []) is).run s).2.Sound
      locator known := by
  induction is generalizing s with
  | nil => exact hs
  | cons i is ih =>
    rw [List.forall_mem_cons] at h
    obtain ⟨o, ho⟩ := decides_resolve (locator.size + 2) below_nil h.1 (Nat.le_refl _)
    rw [run_importAll]
    exact ih h.2 (ho.run s hs).2

end

/-- The search for a module, after any others have been looked for. It ends before any bound that
leaves room for all sources. It finds the loadable modules with what they export, and no others. And
it comes to the same, with the same messages, as if nothing had been looked for before. -/
theorem resolve_loadable (locator : Locator) (known : String → Option ModuleCode)
    {cache : Cache Parsed} (hc : Truthful cache) {earlier : List (String × Pos × String)}
    (he : ∀ i ∈ earlier, Plain i.2.2) {n : String} (hn : Plain n) :
    let search := resolve locator known (locator.size + 2) []
    let s := ((importAll search earlier).run ⟨cache, []⟩).2
    (∀ stop depth, locator.size + 2 ≤ depth →
      (searchTo locator known stop depth [] n).run s = (search n).run s) ∧
    (∀ names, ((search n).run s).1 = .exports names ↔
      Loadable locator known n ∧ names = exportsOf locator known n) ∧
    ((search n).run s).1 = ((search n).run ⟨cache, []⟩).1 := by
  intro search s
  have hs : s.Sound locator known := sound_importAll he (sound_fresh hc)
  obtain ⟨i, hi⟩ := decides_resolve (locator.size + 2) below_nil hn (Nat.le_refl _)
  refine ⟨fun stop depth hdepth => ?_, fun names => ?_, ?_⟩
  · exact run_searchTo stop depth below_nil hn hdepth (Nat.le_refl _) s hs.truthful
  · rw [(hi.run s hs).1]
    exact hi.exports names
  · rw [(hi.run s hs).1, (hi.run _ (sound_fresh hc)).1]

/-- Four modules, of which the last two import one another. -/
def ring : Locator where
  roots := []
  overlay := [("A", "module A where\nimport B\nx = y\n"), ("B", "module B where\ny = 1\n"),
    ("C", "module C where\nimport B\nimport D\n"), ("D", "module D where\nimport C\n")]

theorem names?_eq_some {i : Program.Import} {names : List String} :
    i.names? = some names ↔ i = .exports names := by
  cases i <;> simp [Program.Import.names?]

/-- A module is found behind one that cannot be. -/
theorem resolve_loadable_ring : Loadable ring (fun _ => none) "A" ∧
    exportsOf ring (fun _ => none) "A" = ["x"] ∧ ¬ Loadable ring (fun _ => none) "C" := by
  have hcache : Truthful .disabled := truthful_empty rfl
  have hplain : ∀ i ∈ [("", (⟨0, 0⟩ : Pos), "C")], Plain i.2.2 := by
    simp [Plain]
  have hA := (resolve_loadable ring (fun _ => none) hcache hplain
    (show Plain "A" by simp [Plain])).2.1 ["x"]
  have hC := (resolve_loadable ring (fun _ => none) hcache hplain
    (show Plain "C" by simp [Plain])).2.1
  have hfound := hA.mp (names?_eq_some.mp (by decide +kernel))
  refine ⟨hfound.1, hfound.2.symm, fun h => ?_⟩
  have hnone : ((resolve ring (fun _ => none) (ring.size + 2) [] "C").run
      ((importAll (resolve ring (fun _ => none) (ring.size + 2) []) [("", ⟨0, 0⟩, "C")]).run
        ⟨.disabled, []⟩).2).1.names? = none := by
    decide +kernel
  rw [names?_eq_some.mpr ((hC _).mpr ⟨h, rfl⟩)] at hnone
  cases hnone

end Interpreter

end LazySession

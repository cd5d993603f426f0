import LazySession.Proofs.Scope.Closure
import LazySession.Proofs.Unordered.Linking
import LazySession.Proofs.Unordered.Marking

/-!
# Runs with tables gone through in any order

`Unordered.run` is a run in which every table is gone through in any order: the signatures and the
places of definitions in checks, and the modules when a loader is made. `Unordered.ran_run` compares
its outcomes with `Interpreter.run`.
-/

namespace LazySession

namespace Unordered

open Interpreter (Truthful PlainPieces fragmentSource programOf pieces)

/-! ## The steps -/

def compileAgainst (ip : Interpreter) (l : Loader) (name : String) (ps : List Piece) :
    Acting (Except (List Diagnostic) (List ModuleCode × ModuleCode)) := do
  let w ← get
  let (r, s) ← (compile (resolve ip.locator (l.code? w) (ip.locator.size + 2) []) name ps).run
    { cache := w.cache, found := [] }
  set { w with cache := s.cache }
  return r.map (s.found, ·)

def compileBehind (ip : Interpreter) (history : History) (l : Loader) (name : String)
    (decls : List Decl) : Acting (Except (List Diagnostic) (List ModuleCode × ModuleCode)) := do
  let (ps, ds) ← just (Interpreter.definitionPieces history)
  if ds.isEmpty then compileAgainst ip l name (ps ++ [⟨fragmentSource, decls⟩])
  else return .error ds

def extendLoader (l : Loader) (mods : List ModuleCode) : Acting Loader := do
  let w ← get
  let (l, w) ← extend l mods w
  set w
  return l

def runFragment (ip : Interpreter) (text : String) (f : Fragment) (history : History) (l : Loader) :
    Acting RunResult := do
  match f with
  | .module m =>
    match ← compileAgainst ip l m.name [⟨fragmentSource, m.decls⟩] with
    | .error ds => return .rejected ds
    | .ok (found, code) =>
      return .accepted (.module code.name) (← extendLoader l (found ++ [code]))
  | .definitions decls =>
    match ← compileBehind ip history l Interpreter.definitionsModule decls with
    | .error ds => return .rejected ds
    | .ok (found, _) => return .accepted .definitions (← extendLoader l found)
  | .expression e =>
    let name := Interpreter.scriptName history text
    match ← compileBehind ip history l name [.binding (Interpreter.resultBinding e)] with
    | .error ds => return .rejected ds
    | .ok (found, code) =>
      return .accepted (.expression ⟨name, Interpreter.resultField⟩)
        (← extendLoader l (found ++ [code]))

def runParsed (ip : Interpreter) (p : Program) (history : History) (l : Loader) :
    Acting RunResult :=
  match p.parsed with
  | .error es => return .rejected (es.map .ofSyntaxError)
  | .ok f => runFragment ip p.text f history l

def run (ip : Interpreter) (p : Supplied Program) (history : History)
    (loader : Option (Supplied Loader)) : Acting RunResult := do
  just Act.inquire
  match p, loader with
  | .foreign type, _ => throw (.foreign "program" type)
  | _, some (.foreign type) => throw (.foreign "loader" type)
  | .ours p, l => runParsed ip p history (Interpreter.suppliedLoader l)

/-! ## Outcomes -/

section
variable {α β : Type} {P : Prop}

/-- Every outcome has `L`, and if `P` holds, `S` ties it to that of `x`. -/
def Ran (P : Prop) (L : Except Error α × World → Prop)
    (S : Except Error α × World → Except Error α × World → Prop) (y : Acting α) (x : Act α)
    (w : World) : Prop :=
  Ends (outcomes y w) fun o => L o ∧ (P → S (x.run w) o)

theorem ran_just {L : Except Error α × World → Prop} {x : Act α} {w : World} (h : L (x.run w)) :
    Ran P L Eq (just x) x w :=
  ends_pure ⟨h, fun _ => rfl⟩

theorem Ran.bind {Q : Except Error α × World → Prop} {L : Except Error β × World → Prop}
    {S : Except Error β × World → Except Error β × World → Prop} {y : Acting α} {x : Act α}
    {g : α → Acting β} {f : α → Act β} {w : World} (h : Ran P Q Eq y x w)
    (hf : ∀ a w₁, Q (.ok a, w₁) → Ran P L S (g a) (f a) w₁)
    (he : ∀ e w₁, Q (.error e, w₁) → L (.error e, w₁) ∧ S (.error e, w₁) (.error e, w₁)) :
    Ran P L S (y >>= g) (x >>= f) w := by
  unfold Ran
  rw [outcomes_bind, Act.run_bind]
  refine Ends.bind h fun o ho => ?_
  obtain ⟨r, w₁⟩ := o
  cases r with
  | ok a =>
    refine (hf a w₁ ho.1).mono fun o' ho' => ⟨ho'.1, fun hP => ?_⟩
    rw [ho.2 hP]
    exact ho'.2 hP
  | error e =>
    refine ends_pure ⟨(he e w₁ ho.1).1, fun hP => ?_⟩
    rw [ho.2 hP]
    exact (he e w₁ ho.1).2

end

/-- No signature of the fragment, of the definitions or of a module that can be found has two names
that lack a binding. -/
structure OneLackingIn (ip : Interpreter) (history : History) (text : String) : Prop where
  fragment : ∀ f, Fragment.ofText fragmentSource text = .ok f → OneLacking f.decls
  history : ∀ p ∈ (pieces 0 history.program).1, OneLacking p.decls
  path : ∀ name file m, ip.locator.find name = .ok file →
    Module.ofText file.path file.text = .ok m → OneLacking m.decls

section
variable {P : Prop} {w : World}

/-! ## Compiling -/

/-- Texts have been read, and the code that was found has proper names. -/
def Compiled (w : World) :
    Except Error (Except (List Diagnostic) (List ModuleCode × ModuleCode)) × World → Prop
  | (.ok r, w') => (∃ cache, Truthful cache ∧ w' = { w with cache }) ∧
      ∀ found code, r = .ok (found, code) → ∀ c ∈ found ++ [code], c.Undotted
  | (.error _, _) => False

theorem ran_compileAgainst {ip : Interpreter} (hpath : P → ∀ name file m,
      ip.locator.find name = .ok file → Module.ofText file.path file.text = .ok m →
      OneLacking m.decls) (l : Loader) (name : String) {ps : List Piece} (hps : Readable P ps)
    (hw : Truthful w.cache) :
    Ran P (Compiled w) Eq (compileAgainst ip l name ps) (ip.compileAgainst l name ps) w := by
  have hcompile := comes_compile (comes_resolve hpath (l.code? w) (ip.locator.size + 2) []) name hps
    (s := { cache := w.cache, found := [] }) ⟨hw, nofun⟩
  unfold Ran compileAgainst
  rw [outcomes_get_bind, outcomes_lift_bind]
  refine Ends.bind hcompile fun o ho => ?_
  obtain ⟨r, s⟩ := o
  simp only
  rw [outcomes_set_bind]
  refine ends_pure ⟨⟨⟨s.cache, ho.2.1.cache, rfl⟩, ?_⟩, fun hP => ?_⟩
  · intro found code hr
    cases r with
    | error ds => cases hr
    | ok c =>
      cases hr
      exact List.forall_mem_append.mpr
        ⟨ho.2.1.found, List.forall_mem_singleton.mpr (ho.1 code rfl)⟩
  · have hrun : (ip.compileAgainst l name ps).run w =
        (.ok (((Interpreter.compile (Interpreter.resolve ip.locator (l.code? w) (ip.locator.size + 2)
            []) name ps).run { cache := w.cache, found := [] }).1.map
              (((Interpreter.compile (Interpreter.resolve ip.locator (l.code? w)
                (ip.locator.size + 2) []) name ps).run { cache := w.cache, found := [] }).2.found, ·)),
          { w with cache := ((Interpreter.compile (Interpreter.resolve ip.locator (l.code? w)
            (ip.locator.size + 2) []) name ps).run { cache := w.cache, found := [] }).2.cache }) := rfl
    rw [hrun, ← ho.2.2 hP]

theorem readable_append {ps qs : List Piece} (hps : Readable P ps) (hqs : Readable P qs) :
    Readable P (ps ++ qs) where
  plain := List.forall_mem_append.mpr ⟨hps.plain, hqs.plain⟩
  undotted := List.forall_mem_append.mpr ⟨hps.undotted, hqs.undotted⟩
  apart h := List.forall_mem_append.mpr ⟨hps.apart h, hqs.apart h⟩

theorem readable_fragment {source text : String} {f : Fragment}
    (hf : Fragment.ofText source text = .ok f) (hP : P → OneLacking f.decls) :
    Readable P [⟨source, f.decls⟩] where
  plain := List.forall_mem_singleton.mpr
    (Fragment.each_ofText Interpreter.reads_plainImport (fun _ => Interpreter.plain_tokens) hf)
  undotted := List.forall_mem_singleton.mpr
    (Fragment.each_ofText Decl.reads_undotted (fun _ => Lexed.proper_ofText) hf)
  apart h := List.forall_mem_singleton.mpr
    (apart_of_increasing (Fragment.increasing_ofText hf) (hP h))

theorem readable_pieces (texts : List String) : ∀ (n : Nat),
    (P → ∀ p ∈ (pieces n texts).1, OneLacking p.decls) → Readable P (pieces n texts).1 := by
  induction texts with
  | nil => intro n _; exact ⟨nofun, nofun, fun _ => nofun⟩
  | cons text texts ih =>
    intro n hP
    unfold pieces at hP ⊢
    cases hf : Fragment.ofText (Interpreter.definitionSource n) text with
    | error es =>
      rw [hf] at hP
      exact ih (n + 1) hP
    | ok f =>
      rw [hf] at hP
      cases f with
      | definitions decls =>
        have hone := fun h => List.forall_mem_cons.mp (hP h)
        exact readable_append (readable_fragment hf fun h => (hone h).1)
          (ih (n + 1) fun h => (hone h).2)
      | expression e => exact ih (n + 1) hP
      | module m => exact ih (n + 1) hP

theorem readable_result (e : Expr) :
    Readable P [⟨fragmentSource, [.binding (Interpreter.resultBinding e)]⟩] where
  plain := List.forall_mem_singleton.mpr (List.forall_mem_singleton.mpr trivial)
  undotted := by
    refine List.forall_mem_singleton.mpr (List.forall_mem_singleton.mpr fun b hb => ?_)
    cases hb
    show '.' ∉ Interpreter.resultField.toList
    decide
  apart _ := List.forall_mem_singleton.mpr List.nodup_nil

theorem ran_compileBehind {ip : Interpreter} {history : History} {text : String}
    (hP : P → OneLackingIn ip history text) (l : Loader) (name : String) {decls : List Decl}
    (hdecls : Readable P [⟨fragmentSource, decls⟩]) (hw : Truthful w.cache) :
    Ran P (Compiled w) Eq (compileBehind ip history l name decls)
      (ip.compileBehind history l name decls) w := by
  obtain ⟨hread, hc⟩ := Interpreter.truthful_readDefinitions history.program hw 0
  have hps := readable_pieces history.program 0 fun h => (hP h).history
  have hpieces : Ran P (fun o => ∃ cache, Truthful cache ∧
      o = (.ok (pieces 0 history.program), { w with cache })) Eq
      (just (Interpreter.definitionPieces history)) (Interpreter.definitionPieces history) w := by
    refine ran_just ⟨_, hc, ?_⟩
    rw [← hread]
    rfl
  refine hpieces.bind (fun q w₁ hq => ?_) fun e w₁ hq => ?_
  · obtain ⟨cache, hcache, heq⟩ := hq
    cases heq
    generalize pieces 0 history.program = q at hps ⊢
    obtain ⟨ps, ds⟩ := q
    simp only
    split
    · exact ran_compileAgainst (fun h => (hP h).path) l name (readable_append hps hdecls) hcache
    · exact ends_pure ⟨⟨⟨cache, hcache, rfl⟩, nofun⟩, fun _ => rfl⟩
  · obtain ⟨cache, -, heq⟩ := hq
    cases heq

/-! ## Runs -/

/-- What a run leaves is in order, and so is what was there before. -/
structure Leaves (w : World) (o : Except Error RunResult × World) : Prop where
  cache : Truthful o.2.cache
  plain : o.2.Plain
  kept : ∀ l : Loader, l.Keyed w → l.Keyed o.2
  made : ∀ kind l, o.1 = .ok (.accepted kind l) → l.Keyed o.2

/-- The same outcome in worlds whose first `n` entries have other numbers: the same error, the same
complaints in the same order, or the same kind and loaders that differ only in the numbers of their
entries. -/
inductive Agrees (π : Equiv.Perm EntryId) (n : Nat) :
    Except Error RunResult × World → Except Error RunResult × World → Prop
  | error (e : Error) {w w' : World} (h : w.Alike π w') : Agrees π n (.error e, w) (.error e, w')
  | rejected (ds : List Diagnostic) {w w' : World} (h : w.Alike π w') :
    Agrees π n (.ok (.rejected ds), w) (.ok (.rejected ds), w')
  | accepted (kind : SourceKind) {l l' : Loader} {w w' : World} {ρ : Equiv.Perm EntryId}
    (hold : ∀ id < n, ρ id = π id) (h : Loader.Same ρ (l, w) (l', w')) :
    Agrees π n (.ok (.accepted kind l), w) (.ok (.accepted kind l'), w')

theorem leaves_of_reads (hw : w.Plain) {cache : Cache Parsed} (hc : Truthful cache)
    (context : Context) {r : Except Error RunResult} (hr : ∀ kind l, r ≠ .ok (.accepted kind l)) :
    Leaves w (r, { w with cache, context }) where
  cache := hc
  plain := hw.aside ..
  kept _ h := ⟨h.nodup, h.entry⟩
  made kind l h := absurd h (hr kind l)

theorem plain_foldl_refresh (cs : List ModuleCode) : ∀ {s : Loader × World}, s.2.Plain →
    (∀ c ∈ cs, c.Undotted) → (cs.foldl Loader.refresh s).2.Plain := by
  induction cs with
  | nil => intro s hs _; exact hs
  | cons c cs ih =>
    intro s hs hcs
    rw [List.forall_mem_cons] at hcs
    refine ih ⟨fun id e he => ?_, hs.fields⟩ hcs.2
    simp only [Loader.refresh, Array.getElem?_push] at he
    split at he
    · cases he
      exact hcs.1
    · exact hs.codes id e he

theorem plain_extend (hw : w.Plain) {mods : List ModuleCode} (hm : ∀ c ∈ mods, c.Undotted)
    (l : Loader) : (l.extend mods w).2.Plain := by
  unfold Loader.extend
  split
  · exact hw
  · have hmods := plain_foldl_refresh mods (s := (l, w)) hw hm
    refine plain_foldl_refresh _ hmods fun c hc => ?_
    obtain ⟨p, -, hp⟩ := List.mem_filterMap.mp (List.mem_filter.mp hc).1
    obtain ⟨e, he, rfl⟩ := Option.map_eq_some_iff.mp hp
    exact hmods.codes p.2 e he

theorem leaves_of_same (hw : w.Plain) (hc : Truthful w.cache) {l : Loader} (hk : l.Keyed w)
    {mods : List ModuleCode} (hm : ∀ c ∈ mods, c.Undotted) (kind : SourceKind)
    {π : Equiv.Perm EntryId} (hfixed : ∀ id < w.entries.size, π id = id) {s : Loader × World}
    (h : Loader.Same π (l.extend mods w) s) : Leaves w (.ok (.accepted kind s.1), s.2) := by
  obtain ⟨_, _, r, -⟩ := Loader.renews_extend hk mods
  refine ⟨?_, (plain_extend hw hm l).alike h.world, fun l' hl' => ⟨hl'.nodup, fun p hp => ?_⟩, ?_⟩
  · show Truthful s.2.cache
    rw [h.world.cache, r.world]
    exact hc
  · obtain ⟨e, he, hn⟩ := hl'.entry p hp
    have hlt := (Array.getElem?_eq_some_iff.mp he).1
    refine ⟨e, ?_, hn⟩
    have hentry := h.world.entries p.2
    rw [hfixed _ hlt, r.old _ hlt, he] at hentry
    exact hentry
  · rintro _ _ ⟨⟩
    rw [h.loader]
    exact r.keyed.rename h.world

theorem ran_extendLoader (hw : w.Plain) (hc : Truthful w.cache) {l : Loader} (hk : l.Keyed w)
    {mods : List ModuleCode} (hm : ∀ c ∈ mods, c.Undotted) (kind : SourceKind) :
    Ran P (Leaves w) (Agrees (.refl _) w.entries.size)
      (extendLoader l mods >>= fun l' => return .accepted kind l')
      (Interpreter.extendLoader l mods >>= fun l' => return .accepted kind l') w := by
  have houtcomes : outcomes (extendLoader l mods) w =
      extend l mods w >>= fun s => pure (.ok s.1, s.2) := by
    unfold extendLoader
    rw [outcomes_get_bind, outcomes_lift_bind]
    exact bind_congr fun s => outcomes_set_bind _ _ _
  unfold Ran
  rw [outcomes_bind, houtcomes, bind_assoc]
  refine (ends_extend hk mods).bind fun s ⟨π, hfixed, hsame⟩ => ?_
  rw [pure_bind]
  exact ends_pure ⟨leaves_of_same hw hc hk hm kind hfixed hsame, fun _ => .accepted kind hfixed hsame⟩

theorem Leaves.reads {cache : Cache Parsed} {o : Except Error RunResult × World}
    (h : Leaves { w with cache } o) : Leaves w o :=
  ⟨h.cache, h.plain, fun l hl => h.kept l ⟨hl.nodup, hl.entry⟩, h.made⟩

/-- Behind a compilation, complaints are handed on and code goes into the loader. -/
theorem ran_behind {y : Acting (Except (List Diagnostic) (List ModuleCode × ModuleCode))}
    {x : Act (Except (List Diagnostic) (List ModuleCode × ModuleCode))}
    {g : Except (List Diagnostic) (List ModuleCode × ModuleCode) → Acting RunResult}
    {f : Except (List Diagnostic) (List ModuleCode × ModuleCode) → Act RunResult} (hw : w.Plain)
    {l : Loader} (hk : l.Keyed w) (h : Ran P (Compiled w) Eq y x w)
    (hreject : ∀ ds, g (.error ds) = pure (.rejected ds) ∧ f (.error ds) = pure (.rejected ds))
    (haccept : ∀ found code, ∃ mods kind, mods ⊆ found ++ [code] ∧
      g (.ok (found, code)) = (extendLoader l mods >>= fun l' => return .accepted kind l') ∧
      f (.ok (found, code)) =
        (Interpreter.extendLoader l mods >>= fun l' => return .accepted kind l')) :
    Ran P (Leaves w) (Agrees (.refl _) w.entries.size) (y >>= g) (x >>= f) w := by
  refine h.bind (fun r w₁ hr => ?_) fun e w₁ hr => hr.elim
  obtain ⟨⟨cache, hcache, rfl⟩, hcode⟩ := hr
  rcases r with ds | ⟨found, code⟩
  · rw [(hreject ds).1, (hreject ds).2]
    exact ends_pure ⟨leaves_of_reads hw hcache w.context nofun, fun _ => .rejected ds (.refl _)⟩
  · obtain ⟨mods, kind, hmods, hg, hf⟩ := haccept found code
    rw [hg, hf]
    have hm : ∀ c ∈ mods, c.Undotted := fun c hc => hcode found code rfl c (hmods hc)
    refine (ran_extendLoader (w := { w with cache }) (hw.aside ..) hcache
      ⟨hk.nodup, hk.entry⟩ hm kind).mono fun o ho => ⟨ho.1.reads, ho.2⟩

theorem ran_runFragment {ip : Interpreter} {history : History} {text : String} {f : Fragment}
    (hf : Fragment.ofText fragmentSource text = .ok f) (hP : P → OneLackingIn ip history text)
    {l : Loader} (hk : l.Keyed w) (hw : w.Plain) (hc : Truthful w.cache) :
    Ran P (Leaves w) (Agrees (.refl _) w.entries.size) (runFragment ip text f history l)
      (ip.runFragment text f history l) w := by
  have hfragment := readable_fragment hf fun h => (hP h).fragment f hf
  cases f with
  | module m =>
    refine ran_behind hw hk (ran_compileAgainst (fun h => (hP h).path) l m.name hfragment hc)
      (fun _ => ⟨rfl, rfl⟩) fun found code => ?_
    exact ⟨found ++ [code], _, List.Subset.refl _, rfl, rfl⟩
  | definitions decls =>
    refine ran_behind hw hk (ran_compileBehind hP l Interpreter.definitionsModule hfragment hc)
      (fun _ => ⟨rfl, rfl⟩) fun found code => ?_
    exact ⟨found, _, List.subset_append_left _ _, rfl, rfl⟩
  | expression e =>
    refine ran_behind hw hk (ran_compileBehind hP l (Interpreter.scriptName history text)
      (readable_result e) hc) (fun _ => ⟨rfl, rfl⟩) fun found code => ?_
    exact ⟨found ++ [code], _, List.Subset.refl _, rfl, rfl⟩

/-- A run has an outcome, and every outcome is in order. If no signature has two names that lack a
binding, all of them agree with the run that goes through tables in their own order. -/
theorem ran_run {ip : Interpreter} {history : History} {text : String}
    (hP : P → OneLackingIn ip history text) (loader : Option (Supplied Loader))
    (hk : (Interpreter.suppliedLoader loader).Keyed w) (hw : w.Plain) (hc : Truthful w.cache) :
    Ran P (Leaves w) (Agrees (.refl _) w.entries.size) (run ip (.ours (programOf text)) history loader)
      (ip.run (.ours (programOf text)) history loader) w := by
  have hinquire : Ran P (fun o => ∃ context, o.2 = { w with context }) Eq (just Act.inquire)
      Act.inquire w := by
    refine ran_just ⟨{ w.context with patience := w.context.patience.inquire.2 }, ?_⟩
    rw [Act.run_inquire]
  refine hinquire.bind (fun _ w₁ hw₁ => ?_) fun e w₁ hw₁ => ?_
  · obtain ⟨context, rfl⟩ := hw₁
    have hours : ∀ {l : Loader}, l.Keyed w →
        Ran P (Leaves w) (Agrees (.refl _) w.entries.size)
          (runParsed ip (programOf text) history l)
          (ip.runParsed (programOf text) history l) { w with context } := by
      intro l hl
      unfold runParsed Interpreter.runParsed
      cases hf : (programOf text).parsed with
      | error es =>
        exact ends_pure ⟨leaves_of_reads hw hc context nofun, fun _ => .rejected _ (.refl _)⟩
      | ok f =>
        refine (ran_runFragment (w := { w with context }) hf hP ⟨hl.nodup, hl.entry⟩
          (hw.aside ..) hc).mono fun o ho => ⟨?_, ho.2⟩
        exact ⟨ho.1.cache, ho.1.plain, fun l hl => ho.1.kept l ⟨hl.nodup, hl.entry⟩, ho.1.made⟩
    rcases loader with _ | l | type
    · exact hours hk
    · exact hours hk
    · exact ends_pure ⟨leaves_of_reads hw hc context nofun, fun _ => .error _ (.refl _)⟩
  · obtain ⟨context, rfl⟩ := hw₁
    exact ⟨leaves_of_reads hw hc context nofun, .error _ (.refl _)⟩

end

end Unordered

end LazySession

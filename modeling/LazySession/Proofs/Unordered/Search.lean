import LazySession.Proofs.Interpreter.Transparent
import LazySession.Proofs.Lang.Places
import LazySession.Proofs.Unordered.Check
import Mathlib.Data.List.Nodup

/-!
# Searches that check with tables in any order

A search reads the modules that are imported, and checks them. In a text that was read, signatures
stand apart, and so a check has one outcome if no signature has two names that lack a binding:
`Unordered.apart_of_increasing`. Then a search has one outcome, too: `Unordered.comes_resolve`.
-/

namespace LazySession

/-! ## Names that lack a binding -/

/-- The names in a signature that are not among `bound`. -/
def Decl.lacking (bound : List String) : Decl → List String
  | .signature _ names _ => names.filter (!bound.contains ·)
  | _ => []

/-- No signature has two names that lack a binding. -/
def OneLacking (decls : List Decl) : Prop :=
  ∀ d ∈ decls, ∀ n ∈ d.lacking ((decls.filterMap Decl.binding?).map (·.name)),
    ∀ m ∈ d.lacking ((decls.filterMap Decl.binding?).map (·.name)), n = m

instance (decls : List Decl) : Decidable (OneLacking decls) :=
  inferInstanceAs (Decidable (∀ d ∈ decls, ∀ n ∈ d.lacking _, ∀ m ∈ d.lacking _, n = m))

theorem Piece.nodup_signatures (p : Piece) : p.signatures.names.Nodup := by
  have hnil : (Table.names ([] : Table (Pos × TypeExpr))).Nodup := List.nodup_nil
  refine List.foldlRecOn (motive := fun sigs => (Table.names sigs).Nodup) _ _ hnil ?_
  intro sigs hsigs d _
  cases d with
  | signature pos names type =>
    refine List.foldlRecOn (motive := fun sigs => (Table.names sigs).Nodup) _ _ hsigs ?_
    intro sigs hsigs n _
    split
    · exact hsigs
    · exact Table.nodup_put hsigs _ _
  | _ => exact hsigs

namespace Unordered

theorem apart_of_increasing {p : Piece} (hpos : p.decls.Pairwise fun d e => d.pos.Before e.pos)
    (h : OneLacking p.decls) : Apart p := by
  have hplace : (p.decls.map Decl.pos).Nodup := by
    rw [List.Nodup, List.pairwise_map]
    exact hpos.imp fun hb => hb.ne
  unfold Apart Piece.unboundSignatures
  rw [List.Nodup, List.pairwise_map, List.pairwise_filterMap]
  have hnames := p.nodup_signatures
  rw [Table.names, List.Nodup, List.pairwise_map] at hnames
  refine hnames.imp_of_mem ?_
  rintro ⟨n, pos, type⟩ ⟨m, pos', type'⟩ hn hm hne r hr r' hr' he
  -- two names without a binding in one place would stand in one signature
  simp only at hr hr'
  split at hr
  · cases hr
  · rename_i hbound
    split at hr'
    · cases hr'
    · rename_i hbound'
      cases hr
      cases hr'
      obtain rfl : pos = pos' := he
      obtain ⟨names, hin, hd⟩ := Piece.mem_signatures hn
      obtain ⟨names', hin', hd'⟩ := Piece.mem_signatures hm
      have hsame : Decl.signature pos names type = .signature pos names' type' :=
        List.inj_on_of_nodup_map hplace hd hd' rfl
      cases hsame
      have hlacking : ∀ x ∈ names, ¬ (p.bindings.map (·.name)).contains x →
          x ∈ (Decl.signature pos names type).lacking
            ((p.decls.filterMap Decl.binding?).map (·.name)) := by
        intro x hx hb
        exact List.mem_filter.mpr ⟨hx, by simpa [Piece.bindings] using hb⟩
      exact hne (h _ hd n (hlacking n hin hbound) m (hlacking m hin' hbound'))

/-! ## The steps -/

open Interpreter (Search Truthful Plain PlainPieces)

/-- A search that may come out in several ways. -/
abbrev Searching (α : Type) := StateT Search SetM α

def importAll (resolve : String → Searching Program.Import) :
    List (String × Pos × String) → Searching (Table Program.Import)
  | [] => return []
  | (_, _, mod) :: is => do
    let i ← resolve mod
    return (mod, i) :: (← importAll resolve is)

def compile (resolve : String → Searching Program.Import) (name : String) (ps : List Piece) :
    Searching (Except (List Diagnostic) ModuleCode) := do
  let imported ← importAll resolve (Program.imports ps)
  check name ps imported

def compileFile (resolve : String → Searching Program.Import) (file : SourceFile) :
    Searching Program.Import := do
  let s ← get
  let (parsed, cache) := Interpreter.readModule file.path file.text s.cache
  set { s with cache }
  match parsed with
  | .error es => return .failed (es.map .ofSyntaxError)
  | .ok (.module m) =>
    if m.name ≠ file.name then
      return .failed [⟨file.path, m.pos, .misplacedModule m.name file.name⟩]
    else match ← compile resolve file.name [⟨file.path, m.decls⟩] with
      | .error ds => return .failed ds
      | .ok code =>
        modify fun s => { s with found := s.found ++ [code] }
        return .exports code.exports
  | .ok _ => return .unknown

def resolve (locator : Locator) (known : String → Option ModuleCode) :
    (fuel : Nat) → (resolving : List String) → (name : String) → Searching Program.Import
  | 0, _, name => return .failed [.unplaced (.importCycle name)]
  | fuel + 1, resolving, name => do
    match (← get).found.find? (·.name == name) with
    | some code => return .exports code.exports
    | none => match known name with
      | some code => return .exports code.exports
      | none =>
        if resolving.contains name then return .failed [.unplaced (.importCycle name)]
        else match locator.find name with
          | .ok file => compileFile (resolve locator known fuel (name :: resolving)) file
          | .error e =>
            return if e.isNotFound then .unknown else .failed [.unplaced (.unlocated e)]

end Unordered

/-! ## Names without dots -/

def ModuleCode.Undotted (c : ModuleCode) : Prop := ∀ n ∈ c.exports, '.' ∉ n.toList

def Piece.Undotted (p : Piece) : Prop := ∀ d ∈ p.decls, d.Undotted

theorem Program.undotted_definitions {ps : List Piece} (h : ∀ p ∈ ps, p.Undotted) :
    ∀ d ∈ definitions ps, '.' ∉ d.binding.name.toList := by
  intro d hd
  obtain ⟨p, hp, hd⟩ := mem_definitions hd
  obtain ⟨b, hb, rfl⟩ := List.mem_map.mp hd
  obtain ⟨e, he, hbe⟩ := List.mem_filterMap.mp hb
  refine h p hp e he b ?_
  cases e with
  | binding b' => cases hbe; rfl
  | _ => cases hbe

namespace Unordered

open Interpreter (Search Truthful Plain PlainPieces)

theorem ends_check (name : String) (ps : List Piece) (imported : Table Program.Import) :
    Ends (check name ps imported) fun r =>
      (∀ c, r = .ok c → c.defs = Program.definitions ps) ∧
      ((∀ p ∈ ps, Apart p) → r = Program.check name ps imported) := by
  have hsaid : Ends (ps.mapM diagnostics) fun _ => True := by
    induction ps with
    | nil => exact ends_pure trivial
    | cons p ps ih =>
      rw [List.mapM_cons]
      have hunbound : Ends (unboundSignatures p) fun _ => True :=
        (ends_anyOrder fun _ h => h).bind fun _ _ => ends_pure trivial
      have hp : Ends (diagnostics p) fun _ => True := hunbound.bind fun _ _ => ends_pure trivial
      exact hp.bind fun _ _ => ih.bind fun _ _ => ends_pure trivial
  have hdefs : Ends (check name ps imported) fun r =>
      ∀ c, r = .ok c → c.defs = Program.definitions ps := by
    refine hsaid.bind fun said _ => (ends_definitions ps).bind fun s hs => ends_pure ?_
    intro c hc
    unfold conclude at hc
    simp only at hc
    split at hc
    · cases hc
      exact hs
    · cases hc
  refine ⟨hdefs.1, fun r hr => ⟨hdefs.2 r hr, fun hps => ?_⟩⟩
  rw [check_eq hps] at hr
  exact hr

/-! ## Outcomes -/

/-- What was read is as it stands in the texts, and what was found has proper names. -/
structure Proper (s : Search) : Prop where
  cache : Truthful s.cache
  found : ∀ c ∈ s.found, c.Undotted

section
variable {α β : Type} {P : Prop}

/-- The search leads to proper searches and to results with `Q`, and if `P` holds it has the outcome
of `x` alone. -/
def Comes (P : Prop) (Q : α → Prop) (y : Searching α) (x : StateM Search α) (s : Search) : Prop :=
  Ends (y.run s) fun o => Q o.1 ∧ Proper o.2 ∧ (P → o = x.run s)

theorem comes_pure {Q : α → Prop} {a : α} {s : Search} (ha : Q a) (hs : Proper s) :
    Comes P Q (pure a) (pure a) s :=
  ends_pure ⟨ha, hs, fun _ => rfl⟩

theorem Comes.bind {Q : α → Prop} {R : β → Prop} {y : Searching α} {x : StateM Search α}
    {g : α → Searching β} {f : α → StateM Search β} {s : Search} (h : Comes P Q y x s)
    (hf : ∀ a s', Q a → Proper s' → Comes P R (g a) (f a) s') : Comes P R (y >>= g) (x >>= f) s := by
  unfold Comes
  rw [StateT.run_bind]
  refine Ends.bind h fun o ho => (hf o.1 o.2 ho.1 ho.2.1).mono fun o' ho' => ?_
  refine ⟨ho'.1, ho'.2.1, fun hP => ?_⟩
  rw [ho'.2.2 hP, ho.2.2 hP]
  rfl

theorem comes_get_bind {R : β → Prop} {g : Search → Searching β} {f : Search → StateM Search β}
    {s : Search} (h : Comes P R (g s) (f s) s) : Comes P R (get >>= g) (get >>= f) s := by
  unfold Comes
  rw [StateT.run_bind, StateT.run_get, pure_bind]
  exact h

theorem comes_set_bind {R : β → Prop} {g : PUnit → Searching β} {f : PUnit → StateM Search β}
    {s s' : Search} (h : Comes P R (g ⟨⟩) (f ⟨⟩) s') : Comes P R (set s' >>= g) (set s' >>= f) s := by
  unfold Comes
  rw [StateT.run_bind, StateT.run_set, pure_bind]
  exact h

end

section
variable {P : Prop} {y : String → Searching Program.Import}
variable {x : String → StateM Search Program.Import}

abbrev ComesAll (P : Prop) (y : String → Searching Program.Import)
    (x : String → StateM Search Program.Import) : Prop :=
  ∀ mod, Plain mod → ∀ s, Proper s → Comes P (fun _ => True) (y mod) (x mod) s

theorem comes_importAll (h : ComesAll P y x) (is : List (String × Pos × String)) :
    (∀ i ∈ is, Plain i.2.2) → ∀ s, Proper s →
      Comes P (fun _ => True) (importAll y is) (Interpreter.importAll x is) s := by
  induction is with
  | nil => intro _ s hs; exact comes_pure trivial hs
  | cons i is ih =>
    intro his s hs
    rw [List.forall_mem_cons] at his
    refine (h i.2.2 his.1 s hs).bind fun _ s' _ hs' => ?_
    exact (ih his.2 s' hs').bind fun _ s'' _ hs'' => comes_pure trivial hs''

/-- Pieces that are read from texts. -/
structure Readable (P : Prop) (ps : List Piece) : Prop where
  plain : PlainPieces ps
  undotted : ∀ p ∈ ps, p.Undotted
  apart : P → ∀ p ∈ ps, Apart p

theorem comes_compile (h : ComesAll P y x) (name : String) {ps : List Piece} (hps : Readable P ps)
    {s : Search} (hs : Proper s) :
    Comes P (fun r => ∀ c, r = .ok c → c.Undotted) (compile y name ps)
      (Interpreter.compile x name ps) s := by
  refine (comes_importAll h _ (Interpreter.plain_imports hps.plain) s hs).bind fun imported s' _ hs' => ?_
  show Ends (check name ps imported >>= fun r => pure (r, s')) _
  refine (ends_check name ps imported).bind fun r hr => ends_pure ⟨?_, hs', fun hP => ?_⟩
  · intro c hc n hn
    obtain ⟨d, hd, rfl⟩ := List.mem_map.mp hn
    rw [hr.1 c hc] at hd
    exact Program.undotted_definitions hps.undotted d hd
  · rw [hr.2 (hps.apart hP)]
    rfl

theorem comes_compileFile (h : ComesAll P y x) {file : SourceFile} (hf : Plain file.path)
    (hP : P → ∀ m, Module.ofText file.path file.text = .ok m → OneLacking m.decls) {s : Search}
    (hs : Proper s) :
    Comes P (fun _ => True) (compileFile y file) (Interpreter.compileFile x file) s := by
  obtain ⟨he, hc⟩ := Interpreter.truthful_readModule hs.cache hf file.text
  refine comes_get_bind ?_
  generalize Interpreter.readModule file.path file.text s.cache = q at he hc ⊢
  obtain ⟨parsed, cache⟩ := q
  simp only at he hc
  refine comes_set_bind ?_
  have hread : Proper { s with cache } := ⟨hc, hs.found⟩
  cases hm : Module.ofText file.path file.text with
  | error es =>
    obtain rfl : parsed = .error es := by rw [he, hm]; rfl
    exact comes_pure trivial hread
  | ok m =>
    obtain rfl : parsed = .ok (.module m) := by rw [he, hm]; rfl
    have hps : Readable P [⟨file.path, m.decls⟩] := by
      refine ⟨?_, ?_, fun h => ?_⟩
      · exact List.forall_mem_singleton.mpr
          (Module.each_ofText Interpreter.reads_plainImport (fun _ => Interpreter.plain_tokens) hm)
      · exact List.forall_mem_singleton.mpr
          (Module.each_ofText Decl.reads_undotted (fun _ => Lexed.proper_ofText) hm)
      · exact List.forall_mem_singleton.mpr
          (apart_of_increasing (Module.increasing_ofText hm) (hP h m hm))
    simp only
    split
    · exact comes_pure trivial hread
    · refine (comes_compile h file.name hps hread).bind fun r s' hr hs' => ?_
      cases r with
      | error ds => exact comes_pure trivial hs'
      | ok code =>
        refine Comes.bind (Q := fun _ => True) (ends_pure ⟨trivial, ⟨hs'.cache, ?_⟩, fun _ => rfl⟩)
          fun _ s'' _ hs'' => comes_pure trivial hs''
        exact List.forall_mem_append.mpr ⟨hs'.found, List.forall_mem_singleton.mpr (hr code rfl)⟩

/-- An import comes to the same in whatever order tables are gone through, if no signature in the
modules that can be found has two names that lack a binding. -/
theorem comes_resolve {locator : Locator} (hP : P → ∀ name file m, locator.find name = .ok file →
      Module.ofText file.path file.text = .ok m → OneLacking m.decls)
    (known : String → Option ModuleCode) (fuel : Nat) : ∀ resolving,
    ComesAll P (resolve locator known fuel resolving)
      (Interpreter.resolve locator known fuel resolving) := by
  induction fuel with
  | zero => intro resolving mod _ s hs; exact comes_pure trivial hs
  | succ fuel ih =>
    intro resolving mod hmod s hs
    unfold resolve Interpreter.resolve
    refine comes_get_bind ?_
    cases s.found.find? (·.name == mod) with
    | some code => exact comes_pure trivial hs
    | none =>
      cases known mod with
      | some code => exact comes_pure trivial hs
      | none =>
        simp only
        split
        · exact comes_pure trivial hs
        · cases hfile : locator.find mod with
          | error e => exact comes_pure trivial hs
          | ok file =>
            refine comes_compileFile (ih _) (Interpreter.plain_find hmod hfile) (fun h m hm => ?_) hs
            exact hP h mod file m hfile hm

end

end Unordered

end LazySession

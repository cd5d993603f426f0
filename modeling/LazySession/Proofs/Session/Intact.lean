import LazySession.Proofs.Interpreter.Widened
import LazySession.Proofs.Session.Judged
import LazySession.Proofs.Session.Script

/-!
# Bindings leave the definitions valid

`Service.bind_keeps_valid`: if the definitions of a session compile and a value is bound to a name
that is no keyword, with a type that is a type by itself, they compile still. Modules under the name
of the prelude must not export anything but cells, as they are replaced.
-/

namespace LazySession

namespace Session

open Interpreter Template

variable {ip : Interpreter} {s s' : Session} {w w' : World} {k : BindKey} {v : HostValue}
variable {known : String → Option ModuleCode} {history : History}

/-! ## Verdicts -/

theorem read_empty : Fragment.ofText fragmentSource "" = .ok (.definitions []) := by
  have hscan : Lexeme.scan "".toList = ([], none) := by decide +kernel
  unfold Fragment.ofText Lexed.ofText
  rw [hscan]
  rfl

theorem verdict_empty : (ip.verdict known history "").isOk = true ↔
    ∃ ps r, pieces 0 history.program = (ps, []) ∧
      ip.compiled known definitionsModule (ps ++ [⟨fragmentSource, []⟩]) = .ok r := by
  unfold verdict compiledBehind
  rw [read_empty]
  simp only
  generalize pieces 0 history.program = q
  obtain ⟨ps, ds⟩ := q
  simp only [Prod.mk.injEq]
  cases ds with
  | nil =>
    simp only [List.isEmpty_nil, if_true]
    constructor
    · intro h
      cases hr : ip.compiled known definitionsModule (ps ++ [⟨fragmentSource, []⟩]) with
      | ok r => exact ⟨ps, r, ⟨rfl, trivial⟩, hr⟩
      | error ds =>
        rw [hr] at h
        cases h
    · rintro ⟨_, r, ⟨rfl, -⟩, hr⟩
      rw [hr]
      rfl
  | cons d ds =>
    refine ⟨nofun, ?_⟩
    rintro ⟨_, _, ⟨_, ⟨⟩⟩, _⟩

/-- A module is accepted if it passes. -/
theorem verdict_module {text name : String} {mods : List ModuleCode}
    (h : ip.verdict known history text = .ok (.module name, mods)) :
    ∃ m found code, Fragment.ofText fragmentSource text = .ok (.module m) ∧
      ip.compiled known m.name [⟨fragmentSource, m.decls⟩] = .ok (found, code) ∧
      mods = found ++ [code] := by
  unfold verdict at h
  split at h
  · cases h
  · rename_i m hm
    cases hc : ip.compiled known m.name [⟨fragmentSource, m.decls⟩] with
    | error ds =>
      rw [hc] at h
      cases h
    | ok r =>
      rw [hc] at h
      cases h
      exact ⟨m, r.1, r.2, hm, hc, rfl⟩
  · cases hc : ip.compiledBehind known history definitionsModule _ with
    | error ds =>
      rw [hc] at h
      cases h
    | ok r =>
      rw [hc] at h
      cases h
  · cases hc : ip.compiledBehind known history (scriptName history text) _ with
    | error ds =>
      rw [hc] at h
      cases h
    | ok r =>
      rw [hc] at h
      cases h

/-! ## The definitions of a session -/

/-- The session has what its bindings declare, and imports the prelude if there are any. -/
structure Grown (s : Session) : Prop extends Declares s where
  imported : s.bindings ≠ [] → (generator {}).preludeImport ∈ s.history.predefs

theorem grown_fresh : (fresh (generator {})).Grown where
  nodup := List.nodup_nil
  names := nofun
  prelude := rfl
  configs := nofun
  imported h := absurd rfl h

theorem Grown.bindState (h : Grown s) {next : Session}
    (hb : Session.bindState (generator {}) s k v = .ok next) (hk : k.type ≠ "") : Grown next where
  toDeclares := (declares_bindState h.toDeclares hb hk).1
  imported hne := by
    rcases bindState_cases hb hk with ⟨old, hold, -, rfl⟩ | ⟨-, -, rfl⟩
    · refine h.imported fun he => ?_
      rw [he] at hold
      cases hold
    · simp only [History.prepend, List.mem_append, List.mem_cons]
      cases hs : s.bindings with
      | nil => exact .inl (.inr (by simp))
      | cons b bs => exact .inr (h.imported (by simp [hs]))

/-- The names that are seen in the prelude are those of cells, and no source has its name. -/
def OwnsPrelude (ip : Interpreter) (s : Session) (w : World) : Prop :=
  match s.loader.code? w preludeName with
  | some c => c.exports ⊆ s.boundNames.map (· ++ "Ref")
  | none => ∀ file, ip.locator.find preludeName ≠ .ok file

/-- All bound names can be written down, also one that comes in with a type. -/
theorem declarable_next {xs : List (String × String)} (hnames : ∀ x ∈ xs, Lexeme.Word x.1.toList)
    {source : String} {f : Fragment} (hprelude : Fragment.ofText source (preludeText xs) = .ok f)
    (hxs : ∀ x ∈ xs, (∃ source decls,
      Fragment.ofText source (configText x) = .ok (.definitions decls)) ∨
        TokenKind.ofWord x.1 = .ident ∧ Declarable x) :
    ∀ x ∈ xs, Declarable x ∧ TokenKind.ofWord x.1 = .ident := by
  have hscan : ∀ x ∈ xs, Scannable x := by
    intro x hx
    rcases hxs x hx with ⟨_, _, h⟩ | h
    · exact scannable_of_config (hnames x hx) h
    · exact h.2.scannable
  intro x hx
  rcases hxs x hx with ⟨_, _, h⟩ | h
  · obtain ⟨hd, -, hi⟩ := declarable_of_config hscan hprelude hx h
    exact ⟨hd, hi⟩
  · exact ⟨h.2, h.1⟩

/-- The prelude that has been compiled defines the cells of the bound names, and nothing has been
found on the way. -/
theorem compiled_prelude {s : Session} (h : Declares s) {m : Module}
    (hread : Fragment.ofText fragmentSource s.prelude = .ok (.module m))
    (hxs : ∀ x ∈ s.declared, Declarable x) (hk : ∀ x ∈ s.declared, TokenKind.ofWord x.1 = .ident)
    {found : List ModuleCode} {code : ModuleCode}
    (hc : ip.compiled known m.name [⟨fragmentSource, m.decls⟩] = .ok (found, code)) :
    found = [] ∧ code.name = preludeName ∧ code.exports = s.boundNames.map (· ++ "Ref") ∧
      ∀ x ∈ s.declared, Legible x := by
  have hname : m = ⟨m.pos, preludeName, m.decls⟩ := by
    obtain ⟨rest, htext⟩ := toList_preludeText_prefix s.declared
    rw [← h.prelude] at htext
    obtain ⟨_, _, _, pos, decls, _, _, _, hm⟩ := read_header htext hread
    rw [Fragment.module.inj hm]
  rw [compiled_eq] at hc
  generalize hq : (importAll (resolve ip.locator known (ip.locator.size + 2) [])
    (Program.imports [⟨fragmentSource, m.decls⟩])).run ⟨.disabled, []⟩ = q at hc
  cases hcheck : Program.check m.name [⟨fragmentSource, m.decls⟩] q.1 with
  | error ds =>
    rw [hcheck] at hc
    cases hc
  | ok c =>
    rw [hcheck] at hc
    obtain ⟨hfound, rfl⟩ := Prod.mk.inj (Except.ok.inj hc)
    have hprelude : IsPrelude (preludeText s.declared) c := by
      rw [← h.prelude]
      refine ⟨m.pos, m.decls, q.1, hname ▸ hread, ?_⟩
      rw [← hcheck, hname]
    obtain ⟨hexports, hcells⟩ := hprelude.code hxs (names_declared s ▸ h.nodup)
    have hc := (Program.check_ok hcheck).1
    refine ⟨?_, ?_, hexports.trans (cells_declared s).symm, hprelude.legible hxs hk⟩
    · have himports := hcells.imports
      rw [hc] at himports
      rw [List.map_eq_nil_iff.mp himports] at hq
      rw [← hfound, ← hq]
      rfl
    · rw [hc, hname]

/-- Every text that is read as definitions has its piece. -/
theorem piece_of_text {texts : List String} {text : String} {ds : List Decl}
    (hread : ∀ source, Fragment.ofText source text = .ok (.definitions ds)) :
    ∀ {n : Nat} {ps : List Piece}, pieces n texts = (ps, []) → text ∈ texts →
      ∃ p ∈ ps, p.decls = ds := by
  induction texts with
  | nil => nofun
  | cons t texts ih =>
    intro n ps hp ht
    unfold pieces at hp
    split at hp
    · rename_i es hes
      have hnil := List.append_eq_nil_iff.mp (Prod.mk.inj hp).2
      exact absurd (List.map_eq_nil_iff.mp hnil.1) (Fragment.ofText_error hes)
    · rename_i decls hdecls
      obtain ⟨rfl, hds⟩ := Prod.mk.inj hp
      rcases List.mem_cons.mp ht with rfl | ht
      · rw [hread] at hdecls
        cases hdecls
        exact ⟨_, List.mem_cons_self, rfl⟩
      · obtain ⟨p, hpm, hpd⟩ := ih (Prod.ext rfl hds) ht
        exact ⟨p, List.mem_cons_of_mem _ hpm, hpd⟩
    · cases (Prod.mk.inj hp).2

/-- A piece that a binding adds: it imports the prelude or reads a cell. -/
def Added (xs : List (String × String)) (q : Piece) : Prop :=
  q.decls = [.importing ⟨2, 1⟩ preludeName] ∨ ∃ x ∈ xs, DefinesName x q

/-- What a binding adds passes where the prelude is imported. -/
theorem Added.passes {xs : List (String × String)} (hxs : ∀ x ∈ xs, Legible x) {q : Piece}
    (h : Added xs q) : q.diagnostics = [] ∧ (∀ i ∈ q.imports, i.2.2 = preludeName) ∧
      ∀ d ∈ q.definitions, ∀ ps (imported : Table Program.Import) cells,
        (preludeName, .exports cells) ∈ imported → xs.map (·.1 ++ "Ref") ⊆ cells →
        d.binding.body.check (Program.visible ps imported)
          (Expr.paramNames d.binding.params) = [] := by
  rcases h with h | ⟨x, hx, h⟩
  · obtain ⟨source, decls⟩ := q
    obtain rfl : decls = _ := h
    refine ⟨rfl, fun i hi => ?_, nofun⟩
    obtain rfl := List.mem_singleton.mp hi
    rfl
  · obtain ⟨hdiag, himports, q₁, q₂, q₃, type, -, hdefs⟩ := h.piece (hxs x hx).known
    refine ⟨hdiag, by simp [himports], fun d hd ps imported cells hin hsub => ?_⟩
    rw [hdefs, List.mem_singleton] at hd
    subst hd
    have hcell : x.1 ++ "Ref" ∈ (Program.visible ps imported).plain := by
      refine List.mem_append_left _ (List.mem_append_right _ ?_)
      exact List.mem_flatMap.mpr ⟨_, hin, hsub (List.mem_map.mpr ⟨x, hx, rfl⟩)⟩
    have hreadRef : "readRef" ∈ (Program.visible ps imported).plain :=
      List.mem_append_right _ (by decide)
    simp [reading, Expr.check, Expr.checkAll, Visible.checkVar, hcell, hreadRef]

theorem added_config {xs : List (String × String)} (hxs : ∀ x ∈ xs, Legible x)
    {x : String × String} (hx : x ∈ xs) (n : Nat) :
    ∃ q, pieces n [configText x] = ([q], []) ∧ Added xs q := by
  have hlegible := hxs x hx
  obtain ⟨type, ht⟩ := hlegible.declarable.type
  obtain ⟨sig, bind, hread, hd⟩ := read_config hlegible.declarable.name hlegible.ident ht
    hlegible.unbroken (definitionSource n)
  refine ⟨⟨definitionSource n, [sig, bind]⟩, ?_, .inr ⟨x, hx, type, sig, bind, ht, hd, rfl⟩⟩
  rw [pieces, hread]
  rfl

/-- What a binding adds to the definitions is read as pieces of its kind. -/
theorem added_bindState {next : Session}
    (hnext : bindState (generator {}) s k v = .ok next) (hk : k.type ≠ "")
    (hxs : ∀ x ∈ next.declared, Legible x) {ps : List Piece}
    (hps : pieces 0 s.history.program = (ps, [])) :
    ∃ qs, pieces 0 next.history.program = (ps ++ qs, []) ∧ ∀ q ∈ qs, Added next.declared q := by
  rcases bindState_cases hnext hk with ⟨old, -, -, rfl⟩ | ⟨-, -, rfl⟩
  · exact ⟨[], by rw [List.append_nil]; exact hps, nofun⟩
  · have hmem : (k.name, k.type) ∈ declared { s with
        bindings := s.bindings ++ [(k.name, ⟨k.type, v⟩)] } := by
      simp [declared]
    by_cases hempty : s.bindings.isEmpty = true
    · obtain ⟨q, hq, hadded⟩ := added_config hxs hmem (s.history.program.length + 1)
      refine ⟨[⟨definitionSource s.history.program.length, [.importing ⟨2, 1⟩ preludeName]⟩, q], ?_, ?_⟩
      · have hprogram : History.program (s.history.prepend
            [configText (k.name, k.type), (generator {}).preludeImport]) =
            s.history.program ++ [(generator {}).preludeImport, configText (k.name, k.type)] := by
          simp [History.program, History.prepend]
        simp only [hempty, if_true]
        rw [hprogram]
        refine pieces_append _ _ hps ?_
        rw [Nat.zero_add, pieces, read_import, hq]
      · intro p hp
        simp only [List.mem_cons, List.not_mem_nil, or_false] at hp
        rcases hp with rfl | rfl
        · exact .inl rfl
        · exact hadded
    · obtain ⟨q, hq, hadded⟩ := added_config hxs hmem s.history.program.length
      refine ⟨[q], ?_, List.forall_mem_singleton.mpr hadded⟩
      have hprogram : History.program (s.history.prepend [configText (k.name, k.type)]) =
          s.history.program ++ [configText (k.name, k.type)] := by
        simp [History.program, History.prepend]
      rw [if_neg hempty]
      rw [hprogram]
      refine pieces_append _ _ hps ?_
      rw [Nat.zero_add, hq]

theorem boundNames_bindState {next : Session} (hnext : bindState (generator {}) s k v = .ok next)
    (hk : k.type ≠ "") : s.boundNames ⊆ next.boundNames ∧
      ∀ x ∈ next.declared, x ∈ s.declared ∨
        k.name ∉ s.boundNames ∧ isBindName k.name = true ∧ x = (k.name, k.type) := by
  rcases bindState_cases hnext hk with ⟨old, hold, -, rfl⟩ | ⟨hnone, hname, rfl⟩
  · have hsame : declared { s with bindings := s.bindings.put k.name ⟨old.type, v⟩ } = s.declared :=
      declared_put hold v
    refine ⟨?_, fun x hx => .inl (hsame ▸ hx)⟩
    rw [← names_declared, ← names_declared, hsame]
    exact List.Subset.refl _
  · refine ⟨fun x hx => ?_, fun x hx => ?_⟩
    · rw [boundNames, Table.names, List.map_append]
      exact List.mem_append_left _ hx
    · simp only [declared, List.map_append, List.map_cons, List.map_nil, List.mem_append,
        List.mem_singleton] at hx
      exact hx.imp_right fun he => ⟨Table.get?_eq_none.mp hnone, hname, he⟩

/-- After a value has been bound to a proper name, the definitions compile if they did before. -/
theorem verdict_rebound (hs : Grown s) (hkeyed : s.loader.Keyed w)
    (hold : (ip.verdict (s.loader.code? w) s.history "").isOk = true)
    (hb : Rebound ip (generator {}) k v s w s' w') (hk : k.type ≠ "")
    (hproper : k.name ∉ s.boundNames →
      TokenKind.ofWord k.name = .ident ∧ ∃ type, TypeExpr.ofText? k.type = some type)
    (howns : OwnsPrelude ip s w) :
    (ip.verdict (s'.loader.code? w') s'.history "").isOk = true := by
  obtain ⟨hnext, -, he, hv⟩ := hb
  rename_i next name mods w₁
  obtain ⟨ps, r, hps, hr⟩ := verdict_empty.mp hold
  have hgrown := hs.bindState hnext hk
  obtain ⟨hmore, hdeclared⟩ := boundNames_bindState hnext hk
  obtain ⟨m, found, code, hread, hcompiled, rfl⟩ := verdict_module hv
  have hnames : ∀ x ∈ next.declared, Lexeme.Word x.1.toList := fun x hx =>
    word_of_isBindName (hgrown.names _ (names_declared next ▸ List.mem_map_of_mem hx))
  have hall := declarable_next hnames (hgrown.prelude ▸ hread) fun x hx => by
    rcases hdeclared x hx with hx' | ⟨hnew, -, rfl⟩
    · exact .inl (definitions_of_pieces hps _ (List.mem_reverse.mpr (hs.configs x hx')))
    · obtain ⟨hident, htype⟩ := hproper hnew
      exact .inr ⟨hident, hnames _ hx, htype⟩
  obtain ⟨rfl, hname, hexports, hlegible⟩ := compiled_prelude hgrown.toDeclares hread
    (fun x hx => (hall x hx).1) (fun x hx => (hall x hx).2) hcompiled
  obtain ⟨qs, hqs, hadded⟩ := added_bindState hnext hk hlegible hps
  rw [List.nil_append]
  have hkeeps : w.KeepsCode w₁ := .of_entries he
  have hcode : ∀ n, (s.loader.extend [code] w₁).1.code? (s.loader.extend [code] w₁).2 n =
      if n = preludeName then some code else s.loader.code? w n := by
    intro n
    rw [Loader.code?_extend (hkeeps.keyed hkeyed), hkeeps.code? hkeyed]
    by_cases hn : n = preludeName
    · rw [if_pos hn, hn, ← hname]
      simp [ModuleCode.among]
    · have hne : code.name ≠ n := fun h => hn (h ▸ hname)
      rw [if_neg hn]
      simp [ModuleCode.among, hne]
  generalize (s.loader.extend [code] w₁).1.code? (s.loader.extend [code] w₁).2 = known' at hcode ⊢
  have hown : known' preludeName = some code := by rw [hcode, if_pos rfl]
  have hout : Outdoes ip.locator (s.loader.code? w) known' := by
    unfold OwnsPrelude at howns
    refine ⟨fun n c hc => ?_, fun n hn => ?_⟩
    · by_cases hne : n = preludeName
      · subst hne
        rw [hc] at howns
        refine ⟨code, hown, fun x hx => ?_⟩
        rw [hexports]
        exact List.map_subset _ hmore (howns hx)
      · exact ⟨c, by rw [hcode, if_neg hne, hc], List.Subset.refl _⟩
    · by_cases hne : n = preludeName
      · subst hne
        rw [hn] at howns
        exact .inr howns
      · exact .inl (by rw [hcode, if_neg hne, hn])
  have hpasses := fun q hq => (hadded q hq).passes hlegible
  have hknown : ∀ i ∈ qs.flatMap (·.imports), (known' i.2.2).isSome := by
    intro i hi
    obtain ⟨q, hq, hiq⟩ := List.mem_flatMap.mp hi
    rw [(hpasses q hq).2.1 i hiq, hown]
    rfl
  -- the definitions import the prelude somewhere
  have hne : next.bindings ≠ [] := (declares_bindState hs.toDeclares hnext hk).2.2
  obtain ⟨p, hp, hdecls⟩ := piece_of_text read_import hqs
    (List.mem_reverse.mpr (hgrown.imported hne))
  have himport : preludeName ∈ (Program.imports (ps ++ qs)).map (·.2.2) := by
    have hmem : (p.source, (⟨2, 1⟩ : Pos), preludeName) ∈ (ps ++ qs).flatMap (·.imports) :=
      List.mem_flatMap.mpr ⟨p, hp, by simp [Piece.imports, hdecls]⟩
    exact Program.mem_imports hmem
  have hcells : next.declared.map (·.1 ++ "Ref") ⊆ code.exports := by
    rw [hexports, cells_declared]
    exact List.Subset.refl _
  obtain ⟨r', hr'⟩ := compiled_widened hout hr (fun q hq => (hpasses q hq).1) hknown
    fun q hq d hd imported himported =>
      (hpasses q hq).2.2 d hd _ imported code.exports (himported _ himport code hown) hcells
  exact verdict_empty.mpr ⟨ps ++ qs, r', hqs, hr'⟩

end Session

namespace Call

open Template

theorem grown_does {s s' : Session} {c : Call} (h : s.Grown) (hd : c.Does (generator {}) s s') :
    s'.Grown := by
  have htakes : ∀ {text}, s.Takes text s' → s'.Grown := by
    intro text ht
    cases ht with
    | module l _ => exact ⟨⟨h.nodup, h.names, h.prelude, h.configs⟩, h.imported⟩
    | definitions _ =>
      exact ⟨⟨h.nodup, h.names, h.prelude, fun x hx => List.mem_append_right _ (h.configs x hx)⟩,
        fun hne => List.mem_append_right _ (h.imported hne)⟩
    | expression _ => exact h
  match c with
  | ask (.bind key value) =>
    obtain ⟨l, hk, hnext⟩ := hd
    have hgrown := h.bindState hnext (Session.type_ne_empty hk)
    exact ⟨⟨hgrown.nodup, hgrown.names, hgrown.prelude, hgrown.configs⟩, hgrown.imported⟩
  | ask (.compile text) =>
    obtain rfl : s' = s := hd
    exact h
  | ask (.evaluate text) => exact htakes hd
  | ask (.program text) => exact htakes hd
  | read (.ok text) => exact htakes hd
  | read (.error text) => exact hd.elim

end Call

namespace Service

open Template Interpreter

variable {ip : Interpreter} {v : Service}

/-- The generator that sessions have by default, for all of them. -/
def defaults : Nat → Generator := fun _ => generator {}

theorem grown_after (hv : v.Sound) (hg : ∀ i, (v.sessions i).Grown) (x : Visit) (i : Nat) :
    ((v.after ip defaults x).sessions i).Grown := by
  have hdoes := (does_outcome ip defaults hv x).1
  cases hr : (v.outcome ip defaults x).1 with
  | error e => simpa only [after, hr] using hg i
  | ok r =>
    by_cases hi : i = x.session
    · subst hi
      simpa only [after, hr, Function.update_self] using
        Call.grown_does (hg x.session) (hdoes r hr).1
    · simpa only [after, hr, Function.update_of_ne hi] using hg i

theorem grown_play (ip : Interpreter) (xs : List Visit) : ∀ {v : Service}, v.Sound →
    (∀ i, (v.sessions i).Grown) → ∀ i, ((v.play ip defaults xs).sessions i).Grown := by
  induction xs with
  | nil => exact fun _ hg => hg
  | cons x xs ih => exact fun hv hg => ih (sound_after hv x) (grown_after hv hg x)

/-- Whether nothing at all compiles in a session, that is, whether its definitions do. -/
def compilesEmpty (ip : Interpreter) (v : Service) (i : Nat) : Bool :=
  (v.answer ip defaults ⟨i, {}, .ask (.compile "")⟩).isOk

theorem compilesEmpty_eq (hv : Truthful v.world.cache) (i : Nat) :
    v.compilesEmpty ip i = (ip.verdict ((v.sessions i).loader.code? v.world)
      (v.sessions i).history "").isOk := by
  have h := Session.compile_isOk ip (defaults i) (v.sessions i) ""
    (w := { v.world with context := {} }) hv rfl
  have hcode : (v.sessions i).loader.code? { v.world with context := {} } =
      (v.sessions i).loader.code? v.world := rfl
  rw [hcode] at h
  rw [← h]
  unfold compilesEmpty answer outcome
  simp only [Call.act, Request.perform, Act.run_bind]
  generalize (Session.compile _ _ "").run _ = p
  obtain ⟨r, w⟩ := p
  cases r <;> rfl

/-- **Bindings leave the definitions valid.** In any state that sessions come to, if the definitions
of one compile and a value is bound in it, they compile still; provided that the name, if it is new,
is no keyword and has a type that is one by itself, and that the prelude has not been tampered
with. -/
theorem bind_keeps_valid (ip : Interpreter) (capacity : Option Int) (xs : List Visit) (i : Nat)
    (context : Context) (key : String) (value : HostValue) :
    let v := (start defaults capacity).play ip defaults xs
    let x : Visit := ⟨i, context, .ask (.bind key value)⟩
    v.compilesEmpty ip i = true → (v.answer ip defaults x).isOk = true →
    (∀ k, BindKey.ofText key = .ok k → k.name ∉ (v.sessions i).boundNames →
      TokenKind.ofWord k.name = .ident ∧ ∃ type, TypeExpr.ofText? k.type = some type) →
    (v.sessions i).OwnsPrelude ip v.world →
    (v.after ip defaults x).compilesEmpty ip i = true := by
  intro v x hold hok hproper howns
  have hsound : v.Sound := sound_play ip defaults xs (sound_start defaults capacity)
  have htruth : Truthful v.world.cache :=
    truthful_play ip defaults xs (truthful_start defaults capacity)
  have hgrown : (v.sessions i).Grown :=
    grown_play ip xs (sound_start defaults capacity) (fun _ => Session.grown_fresh) i
  rw [compilesEmpty_eq htruth] at hold
  rw [compilesEmpty_eq (truthful_after htruth x)]
  have hbind := Session.rebound_bind ip (defaults i) (v.sessions i) key value
    (w := { v.world with context }) htruth
  have hrun : v.outcome ip defaults x =
      ((do return (.nil, ← Session.bind ⟨ip.engine, defaults i⟩ (v.sessions i) key value) :
        Act (HostValue × Session)).run { v.world with context }) := rfl
  rw [Act.run_bind] at hrun
  unfold Act.Meets at hbind
  generalize (Session.bind ⟨ip.engine, defaults i⟩ (v.sessions i) key value).run
    { v.world with context } = p at hbind hrun
  obtain ⟨r, w'⟩ := p
  cases r with
  | error e =>
    rw [answer, hrun] at hok
    cases hok
  | ok s' =>
    obtain ⟨k, hk, hb⟩ := hbind
    have hcontext : v.world.KeepsCode { v.world with context } := .of_entries rfl
    have hkeyed := hcontext.keyed (hsound.keyed i)
    have hafter : v.after ip defaults x = ⟨Function.update v.sessions i s', w'⟩ := by
      unfold after
      rw [hrun]
      rfl
    rw [hafter]
    simp only [Function.update_self]
    exact Session.verdict_rebound hgrown hkeyed hold hb (Session.type_ne_empty hk) (hproper k hk) howns

/-- A second name is bound behind a definition that uses the first one. -/
theorem bind_keeps_valid_second : ∃ (xs : List Visit) (key : String) (value : HostValue),
    let v := (start defaults none).play Session.plain defaults xs
    xs.length = 2 ∧ v.compilesEmpty Session.plain 0 = true ∧
      (v.after Session.plain defaults ⟨0, {}, .ask (.bind key value)⟩).compilesEmpty Session.plain 0 =
        true := by
  obtain ⟨xs, key, value, k, hlength, hold, hok, hkey, hident, htype, howns⟩ :
      ∃ (xs : List Visit) (key : String) (value : HostValue) (k : BindKey), xs.length = 2 ∧
        ((start defaults none).play Session.plain defaults xs).compilesEmpty Session.plain 0 = true ∧
        (((start defaults none).play Session.plain defaults xs).answer Session.plain defaults
          ⟨0, {}, .ask (.bind key value)⟩).isOk = true ∧
        (BindKey.ofText key).toOption = some k ∧ TokenKind.ofWord k.name = .ident ∧
        (TypeExpr.ofText? k.type).isSome = true ∧
        ((((start defaults none).play Session.plain defaults xs).sessions 0).loader.code?
          ((start defaults none).play Session.plain defaults xs).world Session.preludeName).any
            (fun c => c.exports ⊆ (((start defaults none).play Session.plain defaults xs).sessions
              0).boundNames.map (· ++ "Ref")) = true :=
    ⟨[⟨0, {}, .ask (.bind "x :: Int" (.data (.ofInt 1)))⟩, ⟨0, {}, .ask (.evaluate "y = x")⟩],
      "z :: Ref Bool", .nil, ⟨"z", some "Ref Bool"⟩, by decide +kernel⟩
  refine ⟨xs, key, value, hlength, hold, bind_keeps_valid Session.plain none xs 0 {} key value hold hok
    (fun k' hk' _ => ?_) ?_⟩
  · obtain rfl : k' = k := by
      rw [hk'] at hkey
      exact Option.some.inj hkey
    exact ⟨hident, Option.isSome_iff_exists.mp htype⟩
  · unfold Session.OwnsPrelude
    obtain ⟨c, hc, hsub⟩ := Option.any_eq_true _ _ |>.mp howns
    rw [hc]
    simpa using hsub

end Service

end LazySession

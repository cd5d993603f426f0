import LazySession.Proofs.Interpreter.Transparent
import LazySession.Proofs.Origin.Marks

/-!
# Texts that modules are compiled from

The code of a module is written in texts: that of an artifact in the definitions of the session and in
the text that was run, that of any other module in its file. `Interpreter.lies_of_verdict`: an
accepted run adds modules for which this holds, and leaves the texts of others as they were.
-/

namespace LazySession

theorem exists_of_map_ok {ε α β : Type} {f : α → β} {x : Except ε α} {b : β} (h : x.map f = .ok b) :
    ∃ a, x = .ok a ∧ f a = b := by
  cases x with
  | error e => cases h
  | ok a => exact ⟨a, rfl, Except.ok.inj h⟩

/-! ## Positions in texts -/

/-- The right hand sides of the bindings. -/
def Decl.bodies (decls : List Decl) : List Expr := (decls.filterMap Decl.binding?).map (·.body)

/-- The expressions in a fragment that stand in no other one. -/
def Fragment.exprs : Fragment → List Expr
  | .definitions decls => Decl.bodies decls
  | .expression e => [e]
  | .module m => Decl.bodies m.decls

/-- Texts by the names of their sources. -/
abbrev Texts := Set (String × String)

/-- What stands in an expression of the texts: the name of the source and the position. -/
def Texts.marks (T : Texts) : Marks :=
  {m | ∃ text f e, (m.1, text) ∈ T ∧ Fragment.ofText m.1 text = .ok f ∧ e ∈ f.exprs ∧ m.2 ∈ e.places}

section
variable {T U : Texts} {source text : String}

theorem Texts.marks_mono (h : T ⊆ U) : T.marks ⊆ U.marks := by
  rintro m ⟨text, f, e, ht, hm⟩
  exact ⟨text, f, e, h ht, hm⟩

theorem Texts.marks_union (T U : Texts) : (T ∪ U).marks = T.marks ∪ U.marks := by
  ext m
  constructor
  · rintro ⟨text, f, e, ht | ht, hm⟩
    · exact .inl ⟨text, f, e, ht, hm⟩
    · exact .inr ⟨text, f, e, ht, hm⟩
  · rintro (h | h)
    · exact marks_mono Set.subset_union_left h
    · exact marks_mono Set.subset_union_right h

theorem Expr.lies_of_ofText {f : Fragment} {e : Expr} (ht : (source, text) ∈ T)
    (hf : Fragment.ofText source text = .ok f) (he : e ∈ f.exprs) : e.Lies T.marks source :=
  fun _ hp => ⟨text, f, e, ht, hf, he, hp⟩

theorem Fragment.ofText_of_module {m : Module} (h : Module.ofText source text = .ok m) :
    Fragment.ofText source text = .ok (.module m) := by
  unfold Module.ofText at h
  unfold Fragment.ofText
  split at h
  · cases h
  · rename_i tokens stop _
    cases tokens with
    | nil => cases h
    | cons t ts =>
      simp only at h ⊢
      split at h
      · rename_i hk
        rw [if_pos hk, h]
        rfl
      · cases h

/-! ## Programs -/

/-- The right hand sides of the piece stand in the texts. -/
def Piece.Lies (M : Marks) (p : Piece) : Prop := ∀ e ∈ Decl.bodies p.decls, e.Lies M p.source

/-- The code of the module stands in the texts. -/
def ModuleCode.Lies (M : Marks) (c : ModuleCode) : Prop :=
  ∀ d ∈ c.defs, d.binding.body.Lies M d.source

variable {M N : Marks}

theorem Piece.Lies.mono {p : Piece} (h : p.Lies M) (hM : M ⊆ N) : p.Lies N :=
  fun e he => (h e he).mono hM

theorem Program.lies_definitions {ps : List Piece} (h : ∀ p ∈ ps, p.Lies M) :
    ∀ d ∈ definitions ps, d.binding.body.Lies M d.source := by
  intro d hd
  obtain ⟨p, hp, hdp⟩ := mem_definitions hd
  obtain ⟨b, hb, rfl⟩ := List.mem_map.mp hdp
  exact h p hp b.body (List.mem_map_of_mem hb)

end

namespace Interpreter

open ModuleCode (among)

/-! ## The texts of a run -/

/-- The file in which a module is found. -/
def fileTexts (locator : Locator) (name : String) : Texts :=
  {t | ∃ file, locator.find name = .ok file ∧ t = (file.path, file.text)}

/-- The definitions of a session under their numbers. -/
def definitionTexts (history : History) : Texts :=
  {t | ∃ n, history.program[n]? = some t.2 ∧ t.1 = definitionSource n}

/-- The texts that a fragment itself is compiled from. -/
def programTexts (history : History) (text : String) : SourceKind → Texts
  | .module _ => {(fragmentSource, text)}
  | _ => definitionTexts history ∪ {(fragmentSource, text)}

/-- The module that a fragment becomes. -/
def artifact? : SourceKind → Option String
  | .module name => some name
  | .definitions => none
  | .expression symbol => some symbol.artifact

/-- The texts of the modules behind a run: those that were known have the texts `old`. -/
def textsAfter (ip : Interpreter) (known : String → Option ModuleCode) (old : String → Texts)
    (history : History) (text : String) (kind : SourceKind) (name : String) : Texts :=
  if artifact? kind = some name then programTexts history text kind
  else if (known name).isSome then old name
  else fileTexts ip.locator name

variable {ip : Interpreter} {known : String → Option ModuleCode} {name : String}

theorem textsAfter_artifact {old : String → Texts} {history : History} {text : String}
    {kind : SourceKind} (h : artifact? kind = some name) :
    ip.textsAfter known old history text kind name = programTexts history text kind :=
  if_pos h

theorem lies_pieces (history : History) :
    ∀ p ∈ (pieces 0 history.program).1, p.Lies (definitionTexts history).marks := by
  have step : ∀ (texts : List String) (n : Nat), (∀ i text, texts[i]? = some text →
      history.program[n + i]? = some text) →
      ∀ p ∈ (pieces n texts).1, p.Lies (definitionTexts history).marks := by
    intro texts
    induction texts with
    | nil => exact fun n _ => nofun
    | cons text texts ih =>
      intro n hn
      have hrest := ih (n + 1) fun i t ht => by
        rw [Nat.add_assoc, Nat.add_comm 1 i]
        exact hn (i + 1) t ht
      unfold pieces
      split
      · exact hrest
      · rename_i decls hread
        refine List.forall_mem_cons.mpr ⟨fun e he => ?_, hrest⟩
        exact Expr.lies_of_ofText ⟨n, hn 0 text rfl, rfl⟩ hread he
      · exact hrest
  exact step history.program 0 fun i text h => by rwa [Nat.zero_add]

/-- What has been found is written in its file. -/
def Filed (locator : Locator) (s : Search) : Prop :=
  s.cache.enabled = false ∧ ∀ c ∈ s.found, c.Lies (fileTexts locator c.name).marks

theorem stable_filed (locator : Locator) : Search.Stable locator (Filed locator) where
  read s source text h := by
    obtain ⟨hoff, hfound⟩ := h
    exact ⟨(readModule_off hoff source text).2, hfound⟩
  found s s' c file m hfile h hread hdefs h' := by
    refine ⟨h'.1, fun d hd => ?_⟩
    rcases List.mem_append.mp hd with hd | hd
    · exact h'.2 d hd
    rw [List.mem_singleton.mp hd, ModuleCode.Lies, hdefs]
    rw [(readModule_off h.1 file.path file.text).1] at hread
    obtain ⟨m', hm, he⟩ := exists_of_map_ok hread
    cases he
    refine Program.lies_definitions (List.forall_mem_singleton.mpr fun e he => ?_)
    exact Expr.lies_of_ofText ⟨file, hfile, rfl⟩ (Fragment.ofText_of_module hm) he
where
  /-- Without a cache, a module is read. -/
  readModule_off {c : Cache Parsed} (hc : c.enabled = false) (source text : String) :
      (readModule source text c).1 = (Module.ofText source text).map .module ∧
        (readModule source text c).2.enabled = false := by
    simp [readModule, Cache.memo, Cache.find, Cache.get?, Cache.set, hc]

/-- What compiling comes to: the code of the pieces is written in marked places, and what was found
on the way in files. It was not known. -/
structure Written (locator : Locator) (known : String → Option ModuleCode) (name : String) (M : Marks)
    (found : List ModuleCode) (code : ModuleCode) : Prop where
  name : code.name = name
  code : code.Lies M
  unknown : ∀ c ∈ found, known c.name = none
  found : ∀ c ∈ found, c.Lies (fileTexts locator c.name).marks

variable {M : Marks} {found : List ModuleCode} {code : ModuleCode} {history : History}

theorem written_compiled {ps : List Piece} (h : ip.compiled known name ps = .ok (found, code))
    (hps : ∀ p ∈ ps, p.Lies M) : Written ip.locator known name M found code := by
  have hc := compiled_compile (resolves_resolve ip.locator known (ip.locator.size + 2) []) name ps
    (s := ⟨.disabled, []⟩) ⟨nofun, .nil⟩
  have hfiled := (kept_resolve (stable_filed ip.locator) known (ip.locator.size + 2) []).compile
    name ps (s := ⟨.disabled, []⟩) ⟨rfl, nofun⟩
  have hcode : ∀ code, ((compile (resolve ip.locator known (ip.locator.size + 2) []) name ps).run
      ⟨.disabled, []⟩).1 = .ok code → code.name = name ∧ code.defs = Program.definitions ps := by
    intro code he
    rw [(Program.check_ok he).1]
    exact ⟨rfl, rfl⟩
  unfold compiled at h
  generalize (compile (resolve ip.locator known (ip.locator.size + 2) []) name ps).run
    ⟨.disabled, []⟩ = q at h hc hfiled hcode
  obtain ⟨r, s⟩ := q
  cases r with
  | error ds => cases h
  | ok code' =>
    cases h
    obtain ⟨hname, hdefs⟩ := hcode code rfl
    refine ⟨hname, ?_, hc.finds.good.found.unknown, hfiled.2⟩
    rw [ModuleCode.Lies, hdefs]
    exact Program.lies_definitions hps

theorem written_compiledBehind {decls : List Decl}
    (h : ip.compiledBehind known history name decls = .ok (found, code))
    (hM : (definitionTexts history).marks ⊆ M) (hd : Piece.Lies M ⟨fragmentSource, decls⟩) :
    Written ip.locator known name M found code := by
  have hpieces := lies_pieces history
  unfold compiledBehind at h
  generalize pieces 0 history.program = q at h hpieces
  obtain ⟨ps, ds⟩ := q
  simp only at h
  split at h
  · refine written_compiled h (List.forall_mem_append.mpr ⟨fun p hp => (hpieces p hp).mono hM, ?_⟩)
    exact List.forall_mem_singleton.mpr hd
  · cases h

section
variable {text : String} {kind : SourceKind} {old : String → Texts} {n : String} {c : ModuleCode}

/-- Modules that were found have the texts of their files, and others those they had. -/
theorem Written.lies_found (h : Written ip.locator known name M found code)
    (hold : ∀ n c, known n = some c → c.Lies (old n).marks) (hn : artifact? kind ≠ some n)
    (hc : (among found.reverse n).or (known n) = some c) :
    c.Lies (ip.textsAfter known old history text kind n).marks := by
  unfold textsAfter
  rw [if_neg hn]
  cases hf : among found.reverse n with
  | some d =>
    rw [hf, Option.some_or] at hc
    cases hc
    obtain ⟨hm, rfl⟩ := ModuleCode.mem_of_among hf
    rw [List.mem_reverse] at hm
    rw [h.unknown c hm]
    exact h.found c hm
  | none =>
    rw [hf, Option.none_or] at hc
    rw [hc]
    exact hold n c hc

/-- The artifact comes last, and so it counts. -/
theorem Written.lies_added
    (h : Written ip.locator known name (programTexts history text kind).marks found code)
    (hold : ∀ n c, known n = some c → c.Lies (old n).marks) (hk : artifact? kind = some name)
    (hc : (among (found ++ [code]).reverse n).or (known n) = some c) :
    c.Lies (ip.textsAfter known old history text kind n).marks := by
  rw [List.reverse_append, List.reverse_singleton, List.singleton_append, among] at hc
  by_cases hn : code.name = n
  · rw [List.find?_cons_of_pos (by simpa using hn), Option.some_or] at hc
    cases hc
    rw [textsAfter_artifact (by rw [hk, ← h.name, hn])]
    exact h.code
  · rw [List.find?_cons_of_neg (by simpa using hn)] at hc
    refine h.lies_found hold (fun he => hn ?_) hc
    rw [hk, ← h.name] at he
    exact Option.some.inj he

/-- **Modules are written in texts.** After an accepted run, the modules that it adds and those that
were known are written in the texts that they have then. -/
theorem lies_of_verdict {mods : List ModuleCode}
    (h : ip.verdict known history text = .ok (kind, mods))
    (hold : ∀ n c, known n = some c → c.Lies (old n).marks)
    (hc : (among mods.reverse n).or (known n) = some c) :
    c.Lies (ip.textsAfter known old history text kind n).marks := by
  have htext : (fragmentSource, text) ∈ definitionTexts history ∪ {(fragmentSource, text)} :=
    .inr rfl
  unfold verdict at h
  cases hf : Fragment.ofText fragmentSource text with
  | error es =>
    rw [hf] at h
    cases h
  | ok f =>
    rw [hf] at h
    cases f with
    | module m =>
      obtain ⟨⟨found, code⟩, hcompiled, he⟩ := exists_of_map_ok h
      cases he
      have hw := written_compiled (M := (programTexts history text (.module m.name)).marks)
        hcompiled (List.forall_mem_singleton.mpr fun e he => Expr.lies_of_ofText rfl hf he)
      rw [hw.name]
      exact hw.lies_added hold rfl hc
    | definitions decls =>
      obtain ⟨⟨found, code⟩, hcompiled, he⟩ := exists_of_map_ok h
      cases he
      have hw := written_compiledBehind hcompiled (Texts.marks_mono Set.subset_union_left)
        fun e he => Expr.lies_of_ofText htext hf he
      exact hw.lies_found hold nofun hc
    | expression e =>
      obtain ⟨⟨found, code⟩, hcompiled, he⟩ := exists_of_map_ok h
      cases he
      have hw := written_compiledBehind hcompiled (Texts.marks_mono Set.subset_union_left)
        fun e he => Expr.lies_of_ofText htext hf he
      exact hw.lies_added hold rfl hc

end

/-- A run that accepts has a verdict, and extends the loader by the modules of it. -/
theorem run_accepted {w w' : World} {loader : Option (Supplied Loader)} {text : String}
    {kind : SourceKind} {l' : Loader} (hw : Truthful w.cache)
    (hrun : (ip.run (.ours (programOf text)) history loader).run w =
      (.ok (.accepted kind l'), w')) :
    ∃ cache mods, Truthful cache ∧
      ip.verdict ((suppliedLoader loader).code? w) history text = .ok (kind, mods) ∧
      (l', w') = (suppliedLoader loader).extend mods (w.read cache) := by
  have hours : ∀ l : Loader, (ip.run (.ours (programOf text)) history (some (.ours l))).run w =
      (.ok (.accepted kind l'), w') → ∃ cache mods, Truthful cache ∧
        ip.verdict (l.code? w) history text = .ok (kind, mods) ∧
        (l', w') = l.extend mods (w.read cache) := by
    intro l h
    obtain ⟨cache, hc, heq⟩ := run_eq ip text history l hw
    rw [h] at heq
    split at heq
    · cases heq
    · split at heq
      · cases heq
      · rename_i mods hv
        cases heq
        exact ⟨cache, mods, hc, hv, rfl⟩
  rcases loader with _ | l | type
  · exact hours .empty hrun
  · exact hours l hrun
  · unfold run at hrun
    rw [Act.run_bind, Act.run_inquire] at hrun
    cases hstop : w.context.patience.inquire.1 <;> rw [hstop] at hrun <;> cases hrun

end Interpreter

end LazySession

import LazySession.Proofs.Interpreter.Outcome
import LazySession.Proofs.Lang.Spans
import LazySession.Proofs.Lang.Types

/-!
# Runs do not depend on the cache

A cache that was filled by reading holds, for every key, what reading gives: `Interpreter.Truthful`.
This takes that no module name and no path has a NUL in it, as keys are made with NULs. So a run is
decided by the text, the definitions and the code of the modules that are known:
`Interpreter.run_eq` with `Interpreter.verdict`.
-/

namespace LazySession

/-! ## Names of modules -/

namespace Lexeme

open Text
open Interpreter (Plain)
open TokenKind (ofWord ofSymbols)

/-- No name of a module has the character. -/
abbrev Foreign (z : Char) : Prop :=
  isIdentPart z = false ∧ isUpper z = false ∧ isIdentStart z = false ∧ z ≠ '.'

variable {z : Char}

theorem not_mem_takeWhile (hz : Foreign z) (cs : List Char) : z ∉ cs.takeWhile isIdentPart := by
  intro hm
  have := List.mem_takeWhile_imp hm
  simp [hz.1] at this

theorem not_mem_dotted (hz : Foreign z) (cs : List Char) : z ∉ (dotted cs).2.1 := by
  fun_induction dotted cs with
  | case1 dot c cs' hc kind more rest h ih =>
    rw [h] at ih
    have hne : z ≠ c := by
      rintro rfl
      simp [hz.2.1] at hc
    simpa [hne, hz.2.2.2] using ⟨not_mem_takeWhile hz cs', ih⟩
  | case2 dot c cs' _ hc =>
    have hne : z ≠ c := by
      rintro rfl
      simp [hz.2.2.1] at hc
    simpa [hne, hz.2.2.2] using not_mem_takeWhile hz cs'
  | _ => simp

theorem not_mem_name (hz : Foreign z) {c : Char} (hc : isUpper c = true) (cs : List Char)
    {kind : TokenKind} {text : String} (h : (name c cs).1.token? = some (kind, text)) :
    z ∉ text.toList := by
  obtain ⟨-, rfl⟩ := Prod.mk.inj (Option.some.inj h)
  have hne : z ≠ c := by
    rintro rfl
    simp [hz.2.1] at hc
  simpa [hne] using ⟨not_mem_takeWhile hz cs, not_mem_dotted hz _⟩

/-- The classes of the names that modules have, alone or in front of a variable. -/
def ofModule : TokenKind → Bool
  | .conid | .qvar => true
  | _ => false

theorem not_ofModule_ofWord (word : String) : ofModule (ofWord word) = false := by
  unfold TokenKind.ofWord
  split <;> rfl

theorem not_ofModule_ofSymbols (run : String) : ofModule (ofSymbols run) = false := by
  unfold TokenKind.ofSymbols
  split <;> rfl

theorem not_ofModule_token {kind kind' : TokenKind} {raw : List Char} {text : String}
    (h : ofModule kind = false) (ht : (token kind raw).token? = some (kind', text)) :
    ofModule kind' = false := by
  cases ht
  exact h

theorem named_next (hz : Foreign z) {c : Char} {cs rest : List Char} {l : Lexeme}
    (h : next c cs = .ok (l, rest)) {kind : TokenKind} {text : String}
    (ht : l.token? = some (kind, text)) (hk : ofModule kind = true) : z ∉ text.toList := by
  by_contra hmem
  refine absurd hk (Bool.eq_false_iff.mp ?_)
  revert h
  fun_cases next c cs with
  | case1 => intro h; cases h; cases ht
  | case2 =>
    intro h
    rw [commentFrom_token h] at ht
    cases ht
  | case3 => intro h; cases h; exact not_ofModule_token (not_ofModule_ofWord _) ht
  | case4 _ _ _ hc =>
    intro h
    obtain rfl : (name c cs).1 = l := by
      simp only [Except.ok.injEq] at h
      rw [h]
    exact absurd hmem (not_mem_name hz hc cs ht)
  | case6 =>
    intro h
    have hkind := stringFrom_token h
    rw [ht] at hkind
    cases hkind
    rfl
  | case11 =>
    intro h
    simp only [Except.ok.injEq, symbols] at h
    split at h
    · cases h
      cases ht
    · cases h
      exact not_ofModule_token (not_ofModule_ofSymbols _) ht
  | case12 => intro h; cases h
  | _ => intro h; cases h; exact not_ofModule_token rfl ht

end Lexeme

theorem Program.exists_of_mem_imports {ps : List Piece} {i : String × Pos × String}
    (h : i ∈ imports ps) : ∃ p ∈ ps, i ∈ p.imports := by
  have step : ∀ is seen : List (String × Pos × String), i ∈ is.foldl (fun seen i =>
      if seen.any (·.2.2 == i.2.2) then seen else seen ++ [i]) seen → i ∈ seen ∨ i ∈ is := by
    intro is
    induction is with
    | nil => exact fun seen h => .inl h
    | cons j is ih =>
      intro seen h
      rcases ih _ h with h | h
      · simp only at h
        split at h
        · exact .inl h
        · exact (List.mem_append.mp h).imp_right fun h => by simp [List.mem_singleton.mp h]
      · exact .inr (List.mem_cons_of_mem _ h)
  exact List.mem_flatMap.mp ((step _ [] h).resolve_left List.not_mem_nil)

namespace Interpreter

/-- If the token names a module, the character is not in its name. -/
def Lacks (z : Char) (t : Token) : Prop := t.kind = .conid → z ∉ t.text.toList

theorem lacks_tokens {z : Char} (hz : Lexeme.Foreign z) {source text : String} {lexed : Lexed}
    (h : Lexed.ofText source text = .ok lexed) : ∀ t ∈ lexed.tokens, Lacks z t := by
  intro t ht hk
  obtain ⟨_, _, _, _, hn, htoken⟩ := Lexed.exists_next h ht
  exact Lexeme.named_next hz hn htoken (by rw [hk]; rfl)

/-- A token that names a module names it without a NUL. -/
abbrev PlainToken : Token → Prop := Lacks '\x00'

theorem plain_tokens {source text : String} {lexed : Lexed}
    (h : Lexed.ofText source text = .ok lexed) : ∀ t ∈ lexed.tokens, PlainToken t :=
  lacks_tokens (by decide) h

/-- What is imported has a name without a NUL. -/
def PlainImport : Decl → Prop
  | .importing _ mod => Plain mod
  | _ => True

theorem reads_plainImport : Decl.Reads PlainToken PlainImport := by
  intro c d c' hc h
  obtain ⟨c₁, c₂, hget, h⟩ := Reader.bind_ok h
  cases hget
  simp only at h
  split at h
  · obtain ⟨_, c₃, hskip, h⟩ := Reader.bind_ok h
    obtain ⟨t, c₄, hexpect, h⟩ := Reader.bind_ok h
    obtain ⟨rfl, -⟩ := Prod.mk.inj (Except.ok.inj h)
    have hc₃ := (Reader.gives_skip c () c₃ hc hskip).2
    obtain ⟨⟨hk, ht⟩, -⟩ := Reader.gives_expect _ _ c₃ t c₄ hc₃ hexpect
    exact ht.resolve_right (by simp [hk]) hk
  · obtain ⟨_, _, _, h⟩ := Reader.bind_ok h
    obtain ⟨_, _, _, h⟩ := Reader.bind_ok h
    cases h
    trivial
  · split at h
    · -- a signature
      unfold Grammar.signature at h
      obtain ⟨_, _, _, h⟩ := Reader.bind_ok h
      obtain ⟨_, _, _, h⟩ := Reader.bind_ok h
      obtain ⟨_, _, _, h⟩ := Reader.bind_ok h
      obtain ⟨_, _, _, h⟩ := Reader.bind_ok h
      obtain ⟨_, _, _, h⟩ := Reader.bind_ok h
      obtain ⟨_, _, _, h⟩ := Reader.bind_ok h
      cases h
      trivial
    · obtain ⟨_, _, _, h⟩ := Reader.bind_ok h
      cases h
      trivial
  · cases h

/-- Pieces that import modules with proper names only. -/
def PlainPieces (ps : List Piece) : Prop := ∀ p ∈ ps, ∀ d ∈ p.decls, PlainImport d

theorem plain_imports {ps : List Piece} (h : PlainPieces ps) :
    ∀ i ∈ Program.imports ps, Plain i.2.2 := by
  intro i hi
  obtain ⟨p, hp, hi⟩ := Program.exists_of_mem_imports hi
  obtain ⟨d, hd, he⟩ := List.mem_filterMap.mp hi
  have hplain := h p hp d hd
  cases d with
  | importing pos mod =>
    cases he
    exact hplain
  | _ => cases he

theorem not_mem_splitFrom {z : Char} (hz : z ≠ '/') (cs : List Char) :
    ∀ (piece : List Char) (done : List String),
      (∀ e ∈ Text.splitFrom '/' piece done cs, z ∉ e.toList) → z ∉ piece ∧ z ∉ cs := by
  induction cs with
  | nil =>
    intro piece done h
    have := h (String.ofList piece.reverse) (by simp [Text.splitFrom])
    exact ⟨by simpa using this, by simp⟩
  | cons c cs ih =>
    intro piece done h
    unfold Text.splitFrom at h
    split at h
    · rename_i hc
      have hmem : String.ofList piece.reverse ∈
          Text.splitFrom '/' [] (String.ofList piece.reverse :: done) cs := mem_splitFrom cs (by simp)
      have := h _ hmem
      exact ⟨by simpa using this, by simpa [hc, hz] using (ih _ _ h).2⟩
    · obtain ⟨hp, hcs⟩ := ih _ _ h
      simp only [List.mem_cons, not_or] at hp ⊢
      exact ⟨hp.2, hp.1, hcs⟩
where
  /-- Pieces that are done stay. -/
  mem_splitFrom {e : String} (cs : List Char) : ∀ {piece : List Char} {done : List String},
      e ∈ done → e ∈ Text.splitFrom '/' piece done cs := by
    induction cs with
    | nil => exact fun h => by simp [Text.splitFrom, h]
    | cons c cs ih =>
      intro piece done h
      unfold Text.splitFrom
      split
      · exact ih (List.mem_cons_of_mem _ h)
      · exact ih h

section
variable {z : Char} (hz : Path.isFileChar z = false)
include hz

theorem not_mem_of_checkElement {e : String} (h : Path.checkElement e = .ok ()) : z ∉ e.toList := by
  unfold Path.checkElement at h
  simp only at h
  split at h
  · cases h
  · split at h
    · cases h
    · split at h
      · cases h
      · split at h
        · cases h
        · rename_i hfind
          intro hm
          have := List.find?_eq_none.mp hfind _ hm
          simp [hz] at this

theorem not_mem_of_check (hslash : z ≠ '/') {path : String} (h : Path.check path = .ok ()) :
    z ∉ path.toList := by
  have hes := Path.checkElement_of_mem (Path.checkElements_of_check h)
  exact (not_mem_splitFrom hslash _ _ _ fun e he => not_mem_of_checkElement hz (hes e he)).2

end

theorem plain_find {locator : Locator} {name : String} {file : SourceFile} (hn : Plain name)
    (h : locator.find name = .ok file) : Plain file.path := by
  rcases Locator.find_ok h with ⟨_, -, rfl⟩ | ⟨-, path, _, hpath, -, rfl⟩
  · simpa [Plain] using hn
  · exact not_mem_of_check (by decide) (by decide) (Locator.filePath_ok hpath).2

/-! ## The cache -/

/-- Everything that is held is what reading gives. -/
def Truthful (c : Cache Parsed) : Prop :=
  c.Each fun key a => ∀ source text, Plain source →
    (key = cacheKey "fragment" source text → a = Fragment.ofText source text) ∧
    (key = cacheKey "module" source text → a = (Module.ofText source text).map .module)

variable {c : Cache Parsed}

theorem truthful_empty (h : c.entries = []) : Truthful c := by
  intro p hp
  rw [h] at hp
  cases hp

theorem truthful_readFragment (h : Truthful c) {source : String} (hs : Plain source) (text : String) :
    (readFragment source text c).1 = Fragment.ofText source text ∧
      Truthful (readFragment source text c).2 := by
  have hmemo := Cache.Each.memo h (cacheKey "fragment" source text)
    (fun _ => Fragment.ofText source text) fun source' text' hs' => by
      refine ⟨fun he => ?_, fun he => absurd he.symm (cacheKey_ne _ _ _ _)⟩
      obtain ⟨rfl, rfl⟩ := cacheKey_inj hs hs' he
      rfl
  exact ⟨(hmemo.1 source text hs).1 rfl, hmemo.2⟩

theorem truthful_readModule (h : Truthful c) {source : String} (hs : Plain source) (text : String) :
    (readModule source text c).1 = (Module.ofText source text).map .module ∧
      Truthful (readModule source text c).2 := by
  have hmemo := Cache.Each.memo h (cacheKey "module" source text)
    (fun _ => (Module.ofText source text).map .module) fun source' text' hs' => by
      refine ⟨fun he => absurd he (cacheKey_ne _ _ _ _), fun he => ?_⟩
      obtain ⟨rfl, rfl⟩ := cacheKey_inj hs hs' he
      rfl
  exact ⟨(hmemo.1 source text hs).2 rfl, hmemo.2⟩

theorem truthful_readDefinitions (texts : List String) (h : Truthful c) (n : Nat) :
    (readDefinitions c n texts).1 = pieces n texts ∧ Truthful (readDefinitions c n texts).2 :=
  readDefinitions_of (fun _ _ text hc hs => truthful_readFragment hc hs text) texts c n h

/-! ## The search -/

/-- The same has been found, with caches that may differ. -/
structure Search.Alike (s s' : Search) : Prop where
  found : s.found = s'.found
  left : Truthful s.cache
  right : Truthful s'.cache

/-- An import comes to the same from searches that are alike. -/
def Blind (resolve : String → StateM Search Program.Import) : Prop :=
  ∀ mod, Plain mod → ∀ s s' : Search, s.Alike s' →
    ((resolve mod).run s).1 = ((resolve mod).run s').1 ∧
      ((resolve mod).run s).2.Alike ((resolve mod).run s').2

section
variable {resolve : String → StateM Search Program.Import}

theorem alike_importAll (hr : Blind resolve) (is : List (String × Pos × String)) :
    (∀ i ∈ is, Plain i.2.2) → ∀ s s' : Search, s.Alike s' →
      ((importAll resolve is).run s).1 = ((importAll resolve is).run s').1 ∧
        ((importAll resolve is).run s).2.Alike ((importAll resolve is).run s').2 := by
  induction is with
  | nil => exact fun _ s s' h => ⟨rfl, h⟩
  | cons i is ih =>
    intro his s s' h
    rw [List.forall_mem_cons] at his
    obtain ⟨hone, h₁⟩ := hr i.2.2 his.1 s s' h
    obtain ⟨hrest, h₂⟩ := ih his.2 _ _ h₁
    rw [run_importAll, run_importAll, hone, hrest]
    exact ⟨rfl, h₂⟩

theorem alike_compile (hr : Blind resolve) (name : String) {ps : List Piece} (hps : PlainPieces ps)
    {s s' : Search} (h : s.Alike s') :
    ((compile resolve name ps).run s).1 = ((compile resolve name ps).run s').1 ∧
      ((compile resolve name ps).run s).2.Alike ((compile resolve name ps).run s').2 := by
  obtain ⟨himports, hs⟩ := alike_importAll hr (Program.imports ps) (plain_imports hps) s s' h
  exact ⟨congrArg (Program.check name ps) himports, hs⟩

theorem alike_compileFile (hr : Blind resolve) {file : SourceFile} (hf : Plain file.path)
    {s s' : Search} (h : s.Alike s') :
    ((compileFile resolve file).run s).1 = ((compileFile resolve file).run s').1 ∧
      ((compileFile resolve file).run s).2.Alike ((compileFile resolve file).run s').2 := by
  obtain ⟨he, hc⟩ := truthful_readModule h.left hf file.text
  obtain ⟨he', hc'⟩ := truthful_readModule h.right hf file.text
  unfold compileFile
  simp only [StateT.run_bind, StateT.run_get, StateT.run_set, pure_bind]
  generalize readModule file.path file.text s.cache = q at he hc ⊢
  generalize readModule file.path file.text s'.cache = q' at he' hc' ⊢
  obtain ⟨parsed, cache⟩ := q
  obtain ⟨parsed', cache'⟩ := q'
  simp only at he he' hc hc'
  obtain rfl : parsed = parsed' := he.trans he'.symm
  have hread : Search.Alike { s with cache } { s' with cache := cache' } := ⟨h.found, hc, hc'⟩
  cases hm : Module.ofText file.path file.text with
  | error es =>
    obtain rfl : parsed = .error es := by rw [he, hm]; rfl
    exact ⟨rfl, hread⟩
  | ok m =>
    obtain rfl : parsed = .ok (.module m) := by rw [he, hm]; rfl
    have hplain : PlainPieces [⟨file.path, m.decls⟩] :=
      List.forall_mem_singleton.mpr (Module.each_ofText reads_plainImport (fun _ => plain_tokens) hm)
    simp only
    split
    · exact ⟨rfl, hread⟩
    · obtain ⟨hcompile, halike⟩ := alike_compile hr file.name hplain hread
      simp only [StateT.run_bind]
      generalize (compile resolve file.name [⟨file.path, m.decls⟩]).run { s with cache } = q at *
      generalize (compile resolve file.name [⟨file.path, m.decls⟩]).run
        { s' with cache := cache' } = q' at *
      obtain ⟨r, s₁⟩ := q
      obtain ⟨r', s₁'⟩ := q'
      obtain rfl : r = r' := hcompile
      cases r with
      | error ds => exact ⟨rfl, halike⟩
      | ok code => exact ⟨rfl, congrArg (· ++ [code]) halike.found, halike.left, halike.right⟩

theorem blind_resolve (locator : Locator) (known : String → Option ModuleCode) (fuel : Nat) :
    ∀ resolving, Blind (Interpreter.resolve locator known fuel resolving) := by
  induction fuel with
  | zero => exact fun _ _ _ _ _ h => ⟨rfl, h⟩
  | succ fuel ih =>
    intro resolving mod hmod s s' h
    unfold Interpreter.resolve
    simp only [StateT.run_bind, StateT.run_get, pure_bind, h.found]
    split
    · exact ⟨rfl, h⟩
    · split
      · exact ⟨rfl, h⟩
      · split
        · exact ⟨rfl, h⟩
        · split
          · rename_i file hfile
            exact alike_compileFile (ih _) (plain_find hmod hfile) h
          · exact ⟨rfl, h⟩

end

/-! ## Runs -/

/-- What compiling comes to when nothing is remembered: the modules found on the way and the code. -/
def compiled (ip : Interpreter) (known : String → Option ModuleCode) (name : String)
    (ps : List Piece) : Except (List Diagnostic) (List ModuleCode × ModuleCode) :=
  let (r, s) := (compile (resolve ip.locator known (ip.locator.size + 2) []) name ps).run
    { cache := .disabled, found := [] }
  r.map (s.found, ·)

/-- The same behind the definitions of a session. -/
def compiledBehind (ip : Interpreter) (known : String → Option ModuleCode) (history : History)
    (name : String) (decls : List Decl) :
    Except (List Diagnostic) (List ModuleCode × ModuleCode) :=
  let (ps, ds) := pieces 0 history.program
  if ds.isEmpty then ip.compiled known name (ps ++ [⟨fragmentSource, decls⟩]) else .error ds

/-- What is to be said of a text: what is wrong with it, or what it is and the modules it adds. -/
def verdict (ip : Interpreter) (known : String → Option ModuleCode) (history : History)
    (text : String) : Except (List Diagnostic) (SourceKind × List ModuleCode) :=
  match Fragment.ofText fragmentSource text with
  | .error es => .error (es.map .ofSyntaxError)
  | .ok (.module m) => (ip.compiled known m.name [⟨fragmentSource, m.decls⟩]).map
      fun (found, code) => (.module code.name, found ++ [code])
  | .ok (.definitions decls) => (ip.compiledBehind known history definitionsModule decls).map
      fun (found, _) => (.definitions, found)
  | .ok (.expression e) =>
    (ip.compiledBehind known history (scriptName history text) [.binding (resultBinding e)]).map
      fun (found, code) => (.expression ⟨scriptName history text, resultField⟩, found ++ [code])

theorem plain_pieces (texts : List String) : ∀ n, PlainPieces (pieces n texts).1 := by
  induction texts with
  | nil => exact fun n => nofun
  | cons text texts ih =>
    intro n
    unfold pieces
    split
    · exact ih (n + 1)
    · rename_i decls hdecls
      exact List.forall_mem_cons.mpr
        ⟨Fragment.each_ofText reads_plainImport (fun _ => plain_tokens) hdecls, ih (n + 1)⟩
    · exact ih (n + 1)

variable {w : World} {l : Loader}

theorem truthful_compileAgainst (ip : Interpreter) (l : Loader) (name : String) {ps : List Piece}
    (hps : PlainPieces ps) (hw : Truthful w.cache) : ∃ cache, Truthful cache ∧
      (ip.compileAgainst l name ps).run w =
        (.ok (ip.compiled (l.code? w) name ps), { w with cache }) := by
  have hstart : Search.Alike { cache := w.cache, found := [] } { cache := .disabled, found := [] } :=
    ⟨rfl, hw, truthful_empty rfl⟩
  obtain ⟨hr, hs⟩ := alike_compile
    (blind_resolve ip.locator (l.code? w) (ip.locator.size + 2) []) name hps hstart
  refine ⟨_, hs.left, ?_⟩
  have hcompiled : ip.compiled (l.code? w) name ps =
      Except.map (((compile (resolve ip.locator (l.code? w) (ip.locator.size + 2) []) name ps).run
        { cache := w.cache, found := [] }).2.found, ·)
        ((compile (resolve ip.locator (l.code? w) (ip.locator.size + 2) []) name ps).run
          { cache := w.cache, found := [] }).1 := by
    rw [hr, hs.found]
    rfl
  rw [hcompiled]
  rfl

theorem truthful_compileBehind (ip : Interpreter) (l : Loader) (history : History) (name : String)
    {decls : List Decl} (hd : ∀ d ∈ decls, PlainImport d) (hw : Truthful w.cache) :
    ∃ cache, Truthful cache ∧ (ip.compileBehind history l name decls).run w =
      (.ok (ip.compiledBehind (l.code? w) history name decls), { w with cache }) := by
  obtain ⟨hread, hc⟩ := truthful_readDefinitions history.program hw 0
  have hps := plain_pieces history.program 0
  have hrun : (definitionPieces history).run w =
      (.ok (pieces 0 history.program), { w with cache := (readDefinitions w.cache 0 history.program).2 }) := by
    rw [← hread]
    rfl
  unfold compileBehind compiledBehind
  rw [Act.run_bind, hrun]
  generalize pieces 0 history.program = q at hps ⊢
  obtain ⟨ps, ds⟩ := q
  simp only
  split
  · have hall : PlainPieces (ps ++ [⟨fragmentSource, decls⟩]) :=
      List.forall_mem_append.mpr ⟨hps, List.forall_mem_singleton.mpr hd⟩
    exact truthful_compileAgainst ip l name hall
      (w := { w with cache := (readDefinitions w.cache 0 history.program).2 }) hc
  · exact ⟨_, hc, rfl⟩

end Interpreter

/-- The world once texts have been read, and it has been asked whether to go on. -/
def World.read (w : World) (cache : Cache Parsed) : World :=
  { w with cache, context := { w.context with patience := w.context.patience.inquire.2 } }

namespace Interpreter

variable {w : World} {l : Loader}

/-- A run that is not called off ends as the verdict says: nothing else decides. -/
theorem run_eq (ip : Interpreter) (text : String) (history : History) (l : Loader)
    (hw : Truthful w.cache) : ∃ cache, Truthful cache ∧
      (ip.run (.ours (programOf text)) history (some (.ours l))).run w =
        if w.context.patience.inquire.1 then (.error .canceled, w.read cache)
        else match ip.verdict (l.code? w) history text with
          | .error ds => (.ok (.rejected ds), w.read cache)
          | .ok (kind, mods) => (.ok (.accepted kind (l.extend mods (w.read cache)).1),
              (l.extend mods (w.read cache)).2) := by
  have hcode : ∀ cache, l.code? (w.read cache) = l.code? w := fun _ => rfl
  unfold run
  rw [Act.run_bind, Act.run_inquire]
  cases w.context.patience.inquire.1 with
  | true => exact ⟨w.cache, hw, rfl⟩
  | false => ?_
  change ∃ cache, Truthful cache ∧
    (ip.runParsed (programOf text) history l).run (w.read w.cache) = _
  have hw' : Truthful (w.read w.cache).cache := hw
  unfold runParsed verdict
  simp only [programOf]
  cases hf : Fragment.ofText fragmentSource text with
  | error es => exact ⟨w.cache, hw, rfl⟩
  | ok f =>
    have hplain := Fragment.each_ofText reads_plainImport (fun _ => plain_tokens) hf
    cases f with
    | module m =>
      have hps : PlainPieces [⟨fragmentSource, m.decls⟩] := List.forall_mem_singleton.mpr hplain
      obtain ⟨cache, hc, hrun⟩ := truthful_compileAgainst ip l m.name hps hw'
      refine ⟨cache, hc, ?_⟩
      simp only [runFragment]
      rw [Act.run_bind, hrun, hcode]
      cases ip.compiled (l.code? w) m.name [⟨fragmentSource, m.decls⟩] <;> rfl
    | definitions decls =>
      have hdecls : ∀ d ∈ decls, PlainImport d := hplain
      obtain ⟨cache, hc, hrun⟩ := truthful_compileBehind ip l history definitionsModule hdecls hw'
      refine ⟨cache, hc, ?_⟩
      simp only [runFragment]
      rw [Act.run_bind, hrun, hcode]
      cases ip.compiledBehind (l.code? w) history definitionsModule decls <;> rfl
    | expression e =>
      have hdecls : ∀ d ∈ [Decl.binding (resultBinding e)], PlainImport d :=
        List.forall_mem_singleton.mpr trivial
      obtain ⟨cache, hc, hrun⟩ :=
        truthful_compileBehind ip l history (scriptName history text) hdecls hw'
      refine ⟨cache, hc, ?_⟩
      simp only [runFragment]
      rw [Act.run_bind, hrun, hcode]
      cases ip.compiledBehind (l.code? w) history (scriptName history text)
        [.binding (resultBinding e)] <;> rfl

end Interpreter

end LazySession

import LazySession.Proofs.Behind.Again
import LazySession.Proofs.Scope.Search
import LazySession.Proofs.Session.RoundTrip

/-!
# Expressions one after the other

`Session.evaluate_again`: after an expression has been evaluated, another one is seen to come to what it
would have come to without it.
-/

namespace LazySession

open Act World

namespace Interpreter

variable {ip : Interpreter} {known : String → Option ModuleCode} {history : History} {name : String}

theorem names_compiled {ps : List Piece} {found : List ModuleCode} {code : ModuleCode}
    (h : ip.compiled known name ps = .ok (found, code)) :
    code.name = name ∧ ∀ c ∈ found, known c.name = none := by
  have hc := compiled_compile (resolves_resolve ip.locator known (ip.locator.size + 2) []) name ps
    (s := ⟨.disabled, []⟩) ⟨nofun, .nil⟩
  unfold compiled at h
  generalize (compile (resolve ip.locator known (ip.locator.size + 2) []) name ps).run ⟨.disabled, []⟩ = q
    at h hc
  obtain ⟨r, s⟩ := q
  cases r with
  | error ds => cases h
  | ok code' =>
    cases h
    exact ⟨(hc.ok _ rfl).1, hc.finds.good.found.unknown⟩

theorem names_compiledBehind {decls : List Decl} {found : List ModuleCode} {code : ModuleCode}
    (h : ip.compiledBehind known history name decls = .ok (found, code)) :
    code.name = name ∧ ∀ c ∈ found, known c.name = none := by
  unfold compiledBehind at h
  generalize pieces 0 history.program = q at h
  obtain ⟨ps, ds⟩ := q
  simp only at h
  split at h
  · exact names_compiled h
  · cases h

/-- An expression that is accepted brings modules under new names, its script being one of them. -/
theorem verdict_script {text : String} {e : Expr} (htext : fragmentOf? text = some (.expression e))
    {kind : SourceKind} {mods : List ModuleCode} (h : ip.verdict known history text = .ok (kind, mods))
    (hfree : known (scriptName history text) = none) :
    kind = .expression ⟨scriptName history text, resultField⟩ ∧
      (∃ c ∈ mods, c.name = scriptName history text) ∧ ∀ c ∈ mods, known c.name = none := by
  unfold verdict at h
  rw [fragmentOf?_eq_some.mp htext] at h
  simp only at h
  cases hc : ip.compiledBehind known history (scriptName history text) [.binding (resultBinding e)] with
  | error ds =>
    rw [hc] at h
    cases h
  | ok x =>
    obtain ⟨found, code⟩ := x
    rw [hc] at h
    obtain ⟨rfl, rfl⟩ := Prod.mk.inj (Except.ok.inj h)
    obtain ⟨hname, hunknown⟩ := names_compiledBehind hc
    refine ⟨rfl, ⟨code, by simp, hname⟩, fun c hm => ?_⟩
    rcases List.mem_append.mp hm with hm | hm
    · exact hunknown c hm
    · rw [List.mem_singleton.mp hm, hname, hfree]

end Interpreter

theorem HostValue.Twin.shown_twin {o : Outside} {p : Pairing} {h h' : Heap} {v v' : HostValue}
    (hv : v.Twin p v') (hh : h.Twin o p h') : v'.shown h' = v.shown h := by
  cases hv with
  | nil => rfl
  | data d => rfl
  | object hv => simp only [HostValue.shown, hv.kind, hh.inspect hv]

namespace Session

open Interpreter

variable {ip : Interpreter} {g : Generator} {s : Session} {w : World} {text : String} {e : Expr}

/-- The value of an expression that has been accepted. -/
def respond (ws : Workshop) (s : Session) (artifact : String) (l : Loader) : Act (HostValue × Session) := do
  let v ← tryCatch (readField ws s l artifact resultField) fun e => throw (.evaluation artifact resultField e)
  return (v, s)

/-- An expression is rejected, or its value is read in the world with its modules. -/
inductive Answers (ip : Interpreter) (g : Generator) (s : Session) (w : World) (text : String) :
    Except Error (HostValue × Session) × World → Prop
  | rejected {ds : List Diagnostic} {cache : Cache Parsed} (hc : Truthful cache)
    (hv : ip.verdict (s.loader.code? w) s.history text = .error ds) :
    Answers ip g s w text (.error (.compilation (ds.map (·.text))), { w with cache })
  | accepted {kind : SourceKind} {mods : List ModuleCode} {cache : Cache Parsed} (hc : Truthful cache)
    (hv : ip.verdict (s.loader.code? w) s.history text = .ok (kind, mods))
    (hnew : ∀ c ∈ mods, s.loader.code? w c.name = none) :
    Answers ip g s w text
      ((respond ⟨ip.engine, g⟩ s (scriptName s.history text) (s.loader.enlarge mods { w with cache }).1).run
        (s.loader.enlarge mods { w with cache }).2)

theorem read_calm (hw : w.context = {}) (cache : Cache Parsed) : w.read cache = { w with cache } := by
  obtain ⟨_, _, _, _, context⟩ := w
  obtain rfl : context = {} := hw
  rfl

theorem accept_expression {l : Loader} (hhas : l.modules.has (scriptName s.history text) = true) (t : String) :
    accept ⟨ip.engine, g⟩ s t (.accepted (.expression ⟨scriptName s.history text, resultField⟩) l) =
      respond ⟨ip.engine, g⟩ s (scriptName s.history text) l := by
  have hname : ip.engine.artifactName ⟨scriptName s.history text, resultField⟩ l =
      .ok (scriptName s.history text) := if_pos hhas
  simp only [accept, readSymbol, hname]
  rfl

theorem answers_evaluateProgram (htext : fragmentOf? text = some (.expression e)) (hw : Truthful w.cache)
    (hcalm : w.context = {}) (hk : s.loader.Keyed w) (hcomplete : ModuleCode.Complete (s.loader.code? w))
    (hfree : scriptName s.history text ∉ s.loader.modules.names) :
    Answers ip g s w text ((evaluateProgram ⟨ip.engine, g⟩ s (programOf text)).run w) := by
  obtain ⟨cache, hc, hrun⟩ := run_eq ip text s.history s.loader hw
  rw [hcalm, read_calm hcalm] at hrun
  have hengine : (ip.engine.run (programOf text) s.history s.loader).run w = _ := hrun
  have hknown : s.loader.code? w (scriptName s.history text) = none :=
    Option.eq_none_iff_forall_ne_some.mpr fun c hcode => hfree (Loader.mem_names_of_code? hcode)
  unfold evaluateProgram
  rw [run_bind, run_lock (by rw [hcalm])]
  simp only
  rw [run_bind, run_during, hengine]
  cases hv : ip.verdict (s.loader.code? w) s.history text with
  | error ds => exact .rejected hc hv
  | ok v =>
    obtain ⟨kind, mods⟩ := v
    obtain ⟨rfl, ⟨c, hcm, hcn⟩, hnew⟩ := verdict_script htext hv hknown
    have hk' : s.loader.Keyed { w with cache } := ⟨hk.nodup, hk.entry⟩
    have hextend : s.loader.extend mods { w with cache } = s.loader.enlarge mods { w with cache } :=
      Loader.extend_new hk' hcomplete hnew
    have hhas : (s.loader.enlarge mods { w with cache }).1.modules.has (scriptName s.history text) = true := by
      obtain ⟨id, -, hid, -⟩ := (Loader.renews_refresh mods hk').new _ (List.mem_map.mpr ⟨c, hcm, hcn⟩)
      exact Option.isSome_iff_exists.mpr ⟨id, hid⟩
    have hrespond := Answers.accepted (g := g) hc hv hnew
    rw [← accept_expression hhas (programOf text).text, ← hextend] at hrespond
    exact hrespond

theorem answers_evaluate (htext : fragmentOf? text = some (.expression e)) (hw : Truthful w.cache)
    (hcalm : w.context = {}) (hk : s.loader.Keyed w) (hcomplete : ModuleCode.Complete (s.loader.code? w))
    (hfree : scriptName s.history text ∉ s.loader.modules.names) :
    Answers ip g s w text ((evaluate ⟨ip.engine, g⟩ s text).run w) := by
  obtain ⟨cache, hc, hread⟩ := truthful_interpret hw text
  have hanswers : Answers ip g s { w with cache } text
      ((evaluateProgram ⟨ip.engine, g⟩ s (programOf text)).run { w with cache }) :=
    answers_evaluateProgram htext hc hcalm ⟨hk.nodup, hk.entry⟩ hcomplete hfree
  have hinterpret : ((⟨ip.engine, g⟩ : Workshop).engine.interpret text).run w = _ := hread
  unfold evaluate
  rw [run_bind, hinterpret]
  change Answers ip g s w text
    ((evaluateProgram ⟨ip.engine, g⟩ s (programOf text)).run { w with cache })
  generalize (evaluateProgram ⟨ip.engine, g⟩ s (programOf text)).run { w with cache } = y at hanswers ⊢
  cases hanswers with
  | rejected hc hv => exact .rejected hc hv
  | accepted hc hv hnew => exact .accepted hc hv hnew

/-- What is seen of what an evaluation comes to. -/
def shown (r : Except Error (HostValue × Session) × World) : Except Error Shown :=
  r.1.map fun x => x.1.shown r.2.heap

theorem run_respond (ws : Workshop) (s : Session) (artifact : String) (l : Loader) (u : World) :
    (respond ws s artifact l).run u =
      (((readField ws s l artifact resultField).run u).1.map (·, s) |>.mapError (.evaluation artifact resultField),
        ((readField ws s l artifact resultField).run u).2) := by
  unfold respond
  rw [run_bind, run_tryCatch]
  generalize (readField ws s l artifact resultField).run u = y
  obtain ⟨r, v⟩ := y
  cases r <;> rfl

theorem shown_respond {ws : Workshop} {l l' : Loader} {u u' : World} {artifact : String}
    (h : (readField ws s l' artifact resultField).seen u' = (readField ws s l artifact resultField).seen u) :
    shown ((respond ws s artifact l').run u') = shown ((respond ws s artifact l).run u) := by
  rw [run_respond, run_respond]
  unfold shown
  unfold Act.seen at h
  generalize (readField ws s l' artifact resultField).run u' = y' at h ⊢
  generalize (readField ws s l artifact resultField).run u = y at h ⊢
  obtain ⟨r, v⟩ := y
  obtain ⟨r', v'⟩ := y'
  cases r with
  | error e =>
    cases r' with
    | error e' =>
      obtain rfl := Except.error.inj h
      rfl
    | ok a' => cases h
  | ok a =>
    cases r' with
    | error e' => cases h
    | ok a' => exact congrArg Except.ok (Except.ok.inj h)

theorem shown_together {o : Apart} {p : WorldPairing} {x x' : Act (HostValue × Session)} {w' : World}
    (h : Together o p Replies x w x' w') : shown (x'.run w') = shown (x.run w) := by
  obtain ⟨q, -, hr, hw⟩ := h
  unfold shown
  rcases hr.cases with ⟨e, he, he'⟩ | ⟨a, a', ha, ha', haa, -⟩
  · rw [he, he']
    rfl
  · rw [ha, ha']
    exact congrArg Except.ok (haa.shown_twin hw.heap)

theorem Answers.sound {p : WorldPairing} (hr : s.Ready p w) {r : Except Error (HostValue × Session) × World}
    (h : Answers ip g s w text r) : Sound [s.loader] r.2 ∧ w.Keeps [] r.2 ∧ Truthful r.2.cache := by
  cases h with
  | rejected hc hv => exact ⟨⟨hr.sound.coherent.keeps_heap (.refl _ _) rfl rfl, hr.sound.idle, hr.sound.calm⟩,
      .of_heap (.refl _ _) rfl rfl, hc⟩
  | @accepted kind mods cache hc hv hnew =>
    have hs := started_enlarge hr.sound hr.complete hc hnew
    obtain ⟨hsound, hkeeps⟩ := ((serves_sound ⟨ip.engine, g⟩ List.mem_cons_self).readField s
      (scriptName s.history text) resultField).world _ hs.sound
    have hcache := (((serves_leaves ⟨ip.engine, g⟩ (s.loader.enlarge mods { w with cache }).1).readField s
      (scriptName s.history text) resultField).world (s.loader.enlarge mods { w with cache }).2).1
    rw [run_respond]
    exact ⟨hsound.tail, hs.enlarged.keeps.trans hkeeps, hcache ▸ hs.enlarged.truthful⟩

/-- **An expression that has been evaluated makes no difference to another one**, which is seen to come
to the same, unless it ends by the depth limit. -/
theorem evaluate_again (hlib : ip.setting.host.Natural) {p : WorldPairing} (hr : s.Ready p w)
    (hprelude : s.bindings = [] ∨ g.preludeArtifact ∈ s.loader.modules.names) {t₁ t₂ : String} {e₁ e₂ : Expr}
    (ht₁ : fragmentOf? t₁ = some (.expression e₁)) (ht₂ : fragmentOf? t₂ = some (.expression e₂))
    (hfree₁ : scriptName s.history t₁ ∉ s.loader.modules.names)
    (hfree₂ : scriptName s.history t₂ ∉ s.loader.modules.names) :
    (evaluate ⟨ip.engine, g⟩ s t₂).Overflows w ∨
      shown ((evaluate ⟨ip.engine, g⟩ s t₂).run ((evaluate ⟨ip.engine, g⟩ s t₁).run w).2) =
        shown ((evaluate ⟨ip.engine, g⟩ s t₂).run w) := by
  have hfirst : Answers ip g s w t₁ ((evaluate ⟨ip.engine, g⟩ s t₁).run w) :=
    answers_evaluate ht₁ hr.twin.truthful.1 hr.sound.calm hr.keyed hr.complete hfree₁
  obtain ⟨hsound, hkeeps, hc'⟩ := hfirst.sound hr
  have hcode : s.loader.code? ((evaluate ⟨ip.engine, g⟩ s t₁).run w).2 = s.loader.code? w :=
    funext fun _ => Loader.code?_keeps hr.keyed hkeeps
  have halone : Answers ip g s w t₂ ((evaluate ⟨ip.engine, g⟩ s t₂).run w) :=
    answers_evaluate ht₂ hr.twin.truthful.1 hr.sound.calm hr.keyed hr.complete hfree₂
  have hafter : Answers ip g s _ t₂
      ((evaluate ⟨ip.engine, g⟩ s t₂).run ((evaluate ⟨ip.engine, g⟩ s t₁).run w).2) :=
    answers_evaluate ht₂ hc' hsound.calm (hsound.coherent.keyed _ (List.mem_singleton_self _))
      (hcode ▸ hr.complete) hfree₂
  unfold Act.Overflows
  generalize (evaluate ⟨ip.engine, g⟩ s t₁).run w = r₁ at hfirst hcode hafter ⊢
  cases hfirst with
  | rejected hc hv =>
    -- only the cache has changed
    refine .inr (shown_together (Session.together_evaluate hlib hr.session t₂ (o := .nothing) (w := w) ?_))
    exact ⟨hr.twin.heap, hr.twin.entries, hr.twin.instances, rfl, hr.twin.truthful.1, hc⟩
  | accepted hc₁ hv₁ hnew₁ =>
    have hs₁ := started_enlarge hr.sound hr.complete hc₁ hnew₁
    rw [run_respond] at hcode hafter ⊢
    generalize (evaluate ⟨ip.engine, g⟩ s t₂).run _ = r₂' at hafter ⊢
    generalize (evaluate ⟨ip.engine, g⟩ s t₂).run w = r₂ at halone ⊢
    cases halone with
    | rejected hc₂ hv₂ =>
      cases hafter with
      | rejected hc₂' hv₂' =>
        rw [hcode, hv₂] at hv₂'
        obtain rfl := Except.error.inj hv₂'
        exact .inr rfl
      | accepted hc₂' hv₂' _ =>
        rw [hcode, hv₂] at hv₂'
        cases hv₂'
    | accepted hc₂ hv₂ hnew₂ =>
      cases hafter with
      | rejected hc₂' hv₂' =>
        rw [hcode, hv₂] at hv₂'
        cases hv₂'
      | accepted hc₂' hv₂' _ =>
        rw [hcode, hv₂] at hv₂'
        cases hv₂'
        refine (readField_again hlib hr hs₁ hprelude hc₂ hc₂' hnew₂ _ _ (scriptName s.history t₂)
          resultField).imp ?_ shown_respond
        rintro ⟨e, he, hl⟩
        refine ⟨.evaluation (scriptName s.history t₂) resultField e, ?_, hl⟩
        rw [run_respond, he]
        rfl

end Session

end LazySession

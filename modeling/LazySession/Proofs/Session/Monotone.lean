import LazySession.Proofs.Interpreter.Acceptance
import LazySession.Proofs.Session.Intact

/-!
# Definitions make nothing unacceptable

`Service.definitions_keep_accepted`: in any state that sessions come to, what compiles before some
definitions are accepted compiles afterwards, though it is then read and checked behind more
definitions, which may replace others and import more modules.
-/

namespace LazySession

namespace Session

open Interpreter

variable {w : World}

/-- A text that is evaluated has a favourable verdict. -/
theorem judged_evaluate (ip : Interpreter) (g : Generator) (s : Session) (text : String)
    (hw : Truthful w.cache) :
    (evaluate ⟨ip.engine, g⟩ s text).Meets w
      (fun _ _ => (ip.verdict (s.loader.code? w) s.history text).isOk = true)
      (fun _ _ => True) := by
  obtain ⟨cache, hc, hrun⟩ := truthful_interpret hw text
  refine Act.meets_bind (Act.meets_of_run hrun (Act.meets_bind (meets_lock ?_ trivial)))
  refine Act.meets_bind (Act.meets_during ((judged_run ip text s.history s.loader
    (w := { w with cache }) hc).mono (fun r w' hj => ?_) fun _ _ _ => trivial))
  cases hj with
  | rejected _ _ => exact Act.meets_throw trivial
  | accepted _ hv =>
    have hok : (ip.verdict (s.loader.code? w) s.history text).isOk = true := by
      change (ip.verdict (s.loader.code? { w with cache }) s.history text).isOk = true
      rw [hv]
      rfl
    exact (Act.meets_trivial _ _).mono (fun _ _ _ => hok) fun _ _ _ => trivial

end Session

namespace Service

open Interpreter

variable {ip : Interpreter} {g : Nat → Generator} {v : Service} {i : Nat}

theorem verdict_of_compiles (hv : Truthful v.world.cache) {context : Context} {t : String}
    (h : (v.answer ip g ⟨i, context, .ask (.compile t)⟩).isOk = true) :
    (ip.verdict ((v.sessions i).loader.code? v.world) (v.sessions i).history t).isOk = true := by
  have hjudged := Session.judged_compile ip (g i) (v.sessions i) t
    (w := { v.world with context }) hv
  unfold answer outcome at h
  simp only [Call.act, Request.perform, Act.run_bind] at h
  unfold Act.Meets at hjudged
  generalize (Session.compile _ _ t).run _ = p at h hjudged
  obtain ⟨r, w⟩ := p
  cases r with
  | ok p => exact hjudged.2
  | error e => cases h

/-- With endless patience it compiles by the verdict. -/
theorem compiles_of_verdict (hv : Truthful v.world.cache) {context : Context} {t : String}
    (hlive : context.patience = .endless)
    (h : (ip.verdict ((v.sessions i).loader.code? v.world) (v.sessions i).history t).isOk = true) :
    (v.answer ip g ⟨i, context, .ask (.compile t)⟩).isOk = true := by
  have hok := Session.compile_isOk ip (g i) (v.sessions i) t (w := { v.world with context }) hv hlive
  have hcode : (v.sessions i).loader.code? { v.world with context } =
      (v.sessions i).loader.code? v.world := rfl
  rw [hcode, h] at hok
  unfold answer outcome
  simp only [Call.act, Request.perform, Act.run_bind]
  generalize (Session.compile _ _ t).run _ = p at hok ⊢
  obtain ⟨r, w⟩ := p
  cases r with
  | ok p => rfl
  | error e => cases hok

/-- Definitions have been accepted: they had a favourable verdict, the session has them at the end of
its history, and its loader knows the code that it knew. -/
theorem accepted_definitions (hv : v.Sound) (ht : Truthful v.world.cache) {context : Context}
    {d : String} {ds : List Decl} (hd : fragmentOf? d = some (.definitions ds))
    (h : (v.answer ip g ⟨i, context, .ask (.evaluate d)⟩).isOk = true) :
    let v' := v.after ip g ⟨i, context, .ask (.evaluate d)⟩
    (ip.verdict ((v.sessions i).loader.code? v.world) (v.sessions i).history d).isOk = true ∧
      v'.sessions i = { v.sessions i with history := (v.sessions i).history.prepend [d] } ∧
      (v'.sessions i).loader.code? v'.world = (v.sessions i).loader.code? v.world := by
  intro v'
  have hjudged := Session.judged_evaluate ip (g i) (v.sessions i) d
    (w := { v.world with context }) ht
  obtain ⟨hdoes, hworks⟩ := does_outcome ip g hv ⟨i, context, .ask (.evaluate d)⟩
  unfold answer at h
  cases hr : (v.outcome ip g ⟨i, context, .ask (.evaluate d)⟩).1 with
  | error e =>
    rw [hr] at h
    cases h
  | ok r =>
    have hverdict : (ip.verdict ((v.sessions i).loader.code? v.world) (v.sessions i).history
        d).isOk = true := by
      unfold Act.Meets at hjudged
      unfold outcome at hr
      simp only [Call.act, Request.perform] at hr
      generalize (Session.evaluate _ _ d).run _ = p at hr hjudged
      obtain ⟨r', w⟩ := p
      obtain rfl : r' = .ok r := hr
      exact hjudged
    have htakes : Session.Takes d (v.sessions i) r.2 := (hdoes r hr).1
    have hsession : v'.sessions i =
        { v.sessions i with history := (v.sessions i).history.prepend [d] } := by
      have hupdate : v'.sessions i = r.2 := by
        simp only [v', after, hr, Function.update_self]
      rw [hupdate]
      unfold fragmentOf? at hd
      generalize r.2 = s' at htakes
      cases htakes with
      | definitions _ => rfl
      | module _ hm =>
        rw [hm] at hd
        cases hd
      | expression he =>
        rw [he] at hd
        cases hd
    refine ⟨hverdict, hsession, funext fun name => ?_⟩
    rw [hsession]
    exact hworks.code.code? (hv.keyed i) name

/-- **Definitions make nothing unacceptable.** In any state that sessions come to, if definitions are
accepted by one of them, then whatever compiled in it before compiles afterwards; and so do its
definitions by themselves. -/
theorem definitions_keep_accepted (ip : Interpreter) (g : Nat → Generator) (capacity : Option Int)
    (xs : List Visit) (i : Nat) (before during live : Context) (d : String) (ds : List Decl) :
    let v := (start g capacity).play ip g xs
    let x : Visit := ⟨i, during, .ask (.evaluate d)⟩
    fragmentOf? d = some (.definitions ds) → (v.answer ip g x).isOk = true →
    live.patience = .endless →
    (∀ t, (v.answer ip g ⟨i, before, .ask (.compile t)⟩).isOk = true →
      ((v.after ip g x).answer ip g ⟨i, live, .ask (.compile t)⟩).isOk = true) ∧
      ((v.after ip g x).answer ip g ⟨i, live, .ask (.compile "")⟩).isOk = true := by
  intro v x hd hok hlive
  have hsound : v.Sound := sound_play ip g xs (sound_start g capacity)
  have htruth : Truthful v.world.cache := truthful_play ip g xs (truthful_start g capacity)
  obtain ⟨hverdict, hsession, hcode⟩ := accepted_definitions hsound htruth hd hok
  have hread : Fragment.ofText fragmentSource d = .ok (.definitions ds) :=
    fragmentOf?_eq_some.mp hd
  have hhistory : ((v.after ip g x).sessions i).history = (v.sessions i).history.prepend [d] :=
    congrArg (·.history) hsession
  have htruth' : Truthful (v.after ip g x).world.cache := truthful_after htruth x
  refine ⟨fun t ht => compiles_of_verdict htruth' hlive ?_, compiles_of_verdict htruth' hlive ?_⟩
  · rw [hcode, hhistory]
    exact verdict_prepend hread hverdict (verdict_of_compiles htruth ht)
  · rw [hcode, hhistory]
    exact verdict_prepend_nothing hread hverdict Session.read_empty

/-- Definitions that replace a name and import a module, before an expression that uses that name. -/
theorem definitions_keep_accepted_replaced :
    let ip : Interpreter := ⟨Interpreter.ring, ⟨.empty, 10⟩⟩
    let v := (start defaults none).play ip defaults
      [⟨0, {}, .ask (.evaluate "import B\nz = y")⟩, ⟨0, {}, .ask (.evaluate "w = z + 1")⟩]
    let x : Visit := ⟨0, {}, .ask (.evaluate "import A\nz = x")⟩
    (v.answer ip defaults ⟨0, {}, .ask (.compile "w + B.y")⟩).isOk = true ∧
      ((v.after ip defaults x).answer ip defaults ⟨0, {}, .ask (.compile "w + B.y")⟩).isOk = true := by
  intro ip v x
  have hkind : (fragmentOf? "import A\nz = x").map Fragment.kind = some "definitions" := by
    decide +kernel
  obtain ⟨ds, hds⟩ : ∃ ds, fragmentOf? "import A\nz = x" = some (.definitions ds) := by
    obtain ⟨f, hf, hkind⟩ := Option.map_eq_some_iff.mp hkind
    cases f with
    | definitions ds => exact ⟨ds, hf⟩
    | expression e => exact absurd hkind (by simp [Fragment.kind])
    | module m => exact absurd hkind (by simp [Fragment.kind])
  have hok : (v.answer ip defaults x).isOk = true := by decide +kernel
  have ht : (v.answer ip defaults ⟨0, {}, .ask (.compile "w + B.y")⟩).isOk = true := by
    decide +kernel
  exact ⟨ht, (definitions_keep_accepted ip defaults none _ 0 {} {} {} _ ds hds hok rfl).1 _ ht⟩

end Service

end LazySession

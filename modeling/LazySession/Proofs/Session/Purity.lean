import LazySession.Proofs.Session.Equipped

/-!
# Expressions are pure

Evaluating an expression links modules, forces thunks that are shared and writes cells of the prelude.
`Service.expressions_pure`: nothing of this can be seen in another expression, as long as the module that
bound values are written to is one of the session's own. With a fitting generator it always is.

A host may bind objects that it has made itself, but no thunks: what a thunk looks like changes when an
expression forces it (`Service.thunk_forced_seen`).
-/

namespace LazySession

namespace Shown

/-- The whole number that is seen, of whatever kind. -/
def int? : Shown → Option Int64
  | .data d => d.int?
  | .nil | .object _ _ => none

def text? : Shown → Option String
  | .data d => d.text?
  | .nil | .object _ _ => none

end Shown

namespace Session

open Interpreter

variable {ip : Interpreter} {g : Generator} {s : Session} {w : World} {text : String}

theorem Answers.session {a : HostValue} {s' : Session} {r : Except Error (HostValue × Session) × World}
    (h : Answers ip g s w text r) (hr : r.1 = .ok (a, s')) : s' = s := by
  cases h with
  | rejected _ _ => cases hr
  | accepted _ _ _ =>
    rw [run_respond] at hr
    generalize (readField _ s _ _ _).run _ = y at hr
    obtain ⟨r, v⟩ := y
    cases r with
    | error e => cases hr
    | ok a => exact (Prod.mk.inj (Except.ok.inj hr)).2.symm

end Session

namespace Service

open Interpreter

variable {ip : Interpreter} {g : Nat → Generator} {capacity : Option Int} {v : Service} {vs : List HostValue}

/-- What is seen of the answer to a call. -/
def sees (ip : Interpreter) (g : Nat → Generator) (v : Service) (x : Visit) : Except Error Shown :=
  (v.answer ip g x).map (HostValue.shown (v.after ip g x).world.heap)

theorem sees_eq (x : Visit) : v.sees ip g x = Session.shown (v.outcome ip g x) := by
  unfold sees Session.shown answer after
  cases (v.outcome ip g x).1 <;> rfl

/-- A session evaluates a text, and nobody calls the work off. -/
def evaluation (i : Nat) (text : String) : Visit := ⟨i, {}, .ask (.evaluate text)⟩

/-- **Evaluating an expression cannot be seen in another one**, if this does not end by the depth limit:
it comes to the same value or the same error. -/
theorem expressions_pure (ip : Interpreter) (hlib : ip.setting.host.Natural) {g : Nat → Generator}
    {capacity : Option Int} {v : Service} {vs : List HostValue} (hv : Reached ip g capacity v vs) (i : Nat)
    {t₁ t₂ : String} {e₁ e₂ : Expr} (ht₁ : fragmentOf? t₁ = some (.expression e₁))
    (ht₂ : fragmentOf? t₂ = some (.expression e₂))
    (hfree : ∀ text, scriptName (v.sessions i).history text ∉ (v.sessions i).loader.modules.names)
    (hprelude : (v.sessions i).bindings = [] ∨ (g i).preludeArtifact ∈ (v.sessions i).loader.modules.names)
    (hover : ∀ e, v.answer ip g (evaluation i t₂) = .error e → e.limit? = none) :
    (v.after ip g (evaluation i t₁)).sees ip g (evaluation i t₂) = v.sees ip g (evaluation i t₂) := by
  obtain ⟨p, hr⟩ := hv.ready hlib i
  have hfirst : Session.Answers ip (g i) (v.sessions i) { v.world with context := {} } t₁
      (v.outcome ip g (evaluation i t₁)) :=
    Session.answers_evaluate ht₁ hr.twin.truthful.1 rfl hr.keyed hr.complete (hfree t₁)
  have hcalm := (hfirst.sound hr).1.calm
  have hsession : (v.after ip g (evaluation i t₁)).sessions i = v.sessions i := by
    unfold after
    generalize v.outcome ip g (evaluation i t₁) = y at hfirst
    obtain ⟨r, w'⟩ := y
    cases r with
    | error e => rfl
    | ok a => exact (Function.update_self ..).trans (hfirst.session rfl)
  have houtcome : (v.after ip g (evaluation i t₁)).outcome ip g (evaluation i t₂) =
      (Session.evaluate ⟨ip.engine, g i⟩ (v.sessions i) t₂).run (v.outcome ip g (evaluation i t₁)).2 := by
    have hworld : { (v.after ip g (evaluation i t₁)).world with context := {} } =
        (v.outcome ip g (evaluation i t₁)).2 := by
      change { (v.outcome ip g (evaluation i t₁)).2 with context := {} } = _
      rw [← hcalm]
    change (Session.evaluate ⟨ip.engine, g i⟩ ((v.after ip g (evaluation i t₁)).sessions i) t₂).run
      { (v.after ip g (evaluation i t₁)).world with context := {} } = _
    rw [hsession, hworld]
  rw [sees_eq, sees_eq, houtcome]
  refine (Session.evaluate_again hlib hr hprelude ht₁ ht₂ (hfree t₁) (hfree t₂)).resolve_left ?_
  rintro ⟨e, he, hl⟩
  refine hl (hover e ?_)
  unfold answer
  exact congrArg (Except.map (·.1)) he

theorem Reached.play (h : Reached ip g capacity v vs) (xs : List Visit) :
    (∀ x ∈ xs, ∀ vs, x.call.Brings vs) → ∃ vs', Reached ip g capacity (v.play ip g xs) vs' := by
  induction xs generalizing v vs with
  | nil => exact fun _ => ⟨vs, h⟩
  | cons x xs ih =>
    intro hxs
    exact ih (h.after x (hxs x List.mem_cons_self vs)) fun y hy => hxs y (List.mem_cons_of_mem _ hy)

theorem scriptName_free {names : List String} (h : names.all (·.toList.head? != some 'I') = true)
    (history : History) (text : String) : scriptName history text ∉ names := by
  intro hm
  have hhead := List.all_eq_true.mp h _ hm
  unfold scriptName at hhead
  simp [String.toList_append] at hhead

theorem expression_of_kind {text : String} (h : (fragmentOf? text).map Fragment.kind = some "expression") :
    ∃ e, fragmentOf? text = some (.expression e) := by
  obtain ⟨f, hf, hkind⟩ := Option.map_eq_some_iff.mp h
  cases f with
  | expression e => exact ⟨e, hf⟩
  | definitions ds => exact absurd hkind (by simp [Fragment.kind])
  | module m => exact absurd hkind (by simp [Fragment.kind])

/-- A cell that a host has made is bound, and a definition uses it. -/
def boundVisits : List Visit :=
  [⟨0, {}, .ask (.bind "x" (.object (.cell 0)))⟩, evaluation 0 "y = readRef x + 1"]

def boundInterpreter : Interpreter := ⟨⟨[], ".mhs", []⟩, ⟨.sample, 40⟩⟩

def boundService : Service :=
  (((start defaults none).make (known []) (.alone (.int 5) rfl)).make (known [.object (.int 5)])
    (.cell (some 0))).play boundInterpreter defaults boundVisits

theorem reached_boundService : ∃ vs, Reached boundInterpreter defaults none boundService vs := by
  have hstart : Reached boundInterpreter defaults none (start defaults none) [] := .start
  have hcell := (hstart.make (.alone (.int 5) rfl)).make (.cell (some 0))
  have hbound := hcell.after ⟨0, {}, .ask (.bind "x" (.object (.cell 0)))⟩ List.mem_cons_self
  exact ⟨_, hbound.after (evaluation 0 "y = readRef x + 1") trivial⟩

/-- The first expression evaluates the definition and has the cell of the bound name filled. -/
theorem expressions_pure_bound :
    (boundService.sessions 0).boundNames = ["x"] ∧
      (boundService.sees boundInterpreter defaults (evaluation 0 "y * readRef x")).toOption.bind Shown.int? =
        some 30 ∧
      (boundService.after boundInterpreter defaults (evaluation 0 "y")).sees boundInterpreter defaults
          (evaluation 0 "y * readRef x") =
        boundService.sees boundInterpreter defaults (evaluation 0 "y * readRef x") := by
  obtain ⟨vs, hv⟩ := reached_boundService
  obtain ⟨e₁, ht₁⟩ : ∃ e, fragmentOf? "y" = some (.expression e) := expression_of_kind (by decide +kernel)
  obtain ⟨e₂, ht₂⟩ : ∃ e, fragmentOf? "y * readRef x" = some (.expression e) :=
    expression_of_kind (by decide +kernel)
  obtain ⟨hbound, hnames⟩ : (boundService.sessions 0).boundNames = ["x"] ∧
      (boundService.sessions 0).loader.modules.names = ["EvalSession.Prelude"] := by
    decide +kernel
  have hsees : (boundService.sees boundInterpreter defaults (evaluation 0 "y * readRef x")).toOption.bind
      Shown.int? = some 30 := by
    decide +kernel
  refine ⟨hbound, hsees, expressions_pure boundInterpreter HostLibrary.natural_sample hv 0 ht₁ ht₂ ?_ ?_ ?_⟩
  · rw [hnames]
    exact scriptName_free (by decide) _
  · exact (hv.equipped HostLibrary.natural_sample (fun _ => Template.fitting_generator) 0).held
  · intro e he
    unfold sees at hsees
    rw [he] at hsees
    cases hsees

/-! ## When a host makes a thunk -/

/-- A host has made a thunk for the number `1`, in a scope of its own, and binds it. -/
def thunkService : Service :=
  let s := start defaults none
  let (root, h) := s.world.heap.newRoot
  let (id, h) := h.newThunk
    { name := "t", code := some (.int ⟨1, 1⟩ 1, root), source := "host", want := none, state := .pending }
  { s with world := { s.world with heap := h } }.after boundInterpreter defaults
    ⟨0, {}, .ask (.bind "x" (.object (.thunk id)))⟩

/-- The thunk is the value of `x`, which shows it as it is: pending, until a function forces it that is
called with it. -/
theorem thunk_forced_seen :
    (thunkService.sessions 0).boundNames = ["x"] ∧
      (∃ e, fragmentOf? "(\\y -> y) x" = some (.expression e)) ∧
      (∃ e, fragmentOf? "show x" = some (.expression e)) ∧
      (∀ text, scriptName (thunkService.sessions 0).history text ∉
        (thunkService.sessions 0).loader.modules.names) ∧
      (thunkService.sees boundInterpreter defaults (evaluation 0 "show x")).toOption.bind Shown.text? =
        some "<thunk t>" ∧
      ((thunkService.after boundInterpreter defaults (evaluation 0 "(\\y -> y) x")).sees boundInterpreter
        defaults (evaluation 0 "show x")).toOption.bind Shown.text? = some "1" := by
  refine ⟨by decide +kernel, expression_of_kind (by decide +kernel), expression_of_kind (by decide +kernel),
    scriptName_free (by decide +kernel) _, by decide +kernel, by decide +kernel⟩

/-! ## When bound values are written elsewhere -/

/-- The module `B` is declared as the prelude, but bound values are written to a module `P`. -/
def strayGenerator : Generator where
  prelude := "module B where\n"
  preludeImport := "\nimport P\n"
  preludeArtifact := "P"
  cellName name := name ++ "Ref"
  declare name _ := .ok ⟨"\n" ++ name ++ " = readRef " ++ name ++ "Ref\n", ""⟩

/-- The module `P` can be found. Its cell is that of the module `Q`, which has been loaded. -/
def strayInterpreter : Interpreter :=
  ⟨⟨[], ".mhs", [("P", "module P where\nimport Q\n!xRef = qRef\n!z = readRef qRef\n")]⟩, ⟨.sample, 40⟩⟩

def strayVisits : List Visit :=
  [evaluation 0 "module Q where\nqRef = newRef 0\n", ⟨0, {}, .ask (.bind "x" (.data (.ofInt 5)))⟩]

def strayService : Service :=
  (start (fun _ => strayGenerator) none).play strayInterpreter (fun _ => strayGenerator) strayVisits

/-- The module `P` is linked anew for every expression, before the bound value is written: an expression
is seen to come to what the one before it has written. -/
theorem expressions_impure_elsewhere :
    strayInterpreter.setting.host.Natural ∧
      (∃ vs, Reached strayInterpreter (fun _ => strayGenerator) none strayService vs) ∧
      (∃ e, fragmentOf? "z" = some (.expression e)) ∧
      (∀ text, scriptName (strayService.sessions 0).history text ∉
        (strayService.sessions 0).loader.modules.names) ∧
      (strayService.sees strayInterpreter (fun _ => strayGenerator) (evaluation 0 "z")).toOption.bind
        Shown.int? = some 0 ∧
      ((strayService.after strayInterpreter (fun _ => strayGenerator) (evaluation 0 "z")).sees
        strayInterpreter (fun _ => strayGenerator) (evaluation 0 "z")).toOption.bind Shown.int? = some 5 := by
  refine ⟨HostLibrary.natural_sample, Reached.start.play strayVisits ?_, expression_of_kind (by decide +kernel),
    scriptName_free (by decide +kernel) _, by decide +kernel, by decide +kernel⟩
  simp [strayVisits, evaluation, Call.Brings, HostValue.Known]

end Service

end LazySession

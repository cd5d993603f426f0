import LazySession.Proofs.Interpreter.Reading
import LazySession.Proofs.Scope.Accepted

/-!
# What a run comes to

`Interpreter.Ran` lists the outcomes of running a text: it is rejected, or it is accepted as a
module, as definitions or as an expression, and then the loader is extended by what was compiled.
`Interpreter.ran_run`: there are no others.
-/

namespace LazySession

namespace Interpreter

open ModuleCode

/-- The pieces have been compiled as a module. Its imports are among the known modules and those in
`found`, which were found on the way. -/
structure Compiles (known : String → Option ModuleCode) (name : String) (ps : List Piece)
    (found : List ModuleCode) (code : ModuleCode) : Prop where
  order : Found known found
  check : Program.check name ps (Program.importsAmong (seen known found) ps) = .ok code

theorem Compiles.code_eq {known : String → Option ModuleCode} {name : String} {ps : List Piece}
    {found : List ModuleCode} {code : ModuleCode} (h : Compiles known name ps found code) :
    code = ⟨name, (Program.imports ps).map (·.2.2), Program.definitions ps⟩ :=
  (Program.check_ok h.check).1

variable {w : World}

theorem compiles_compileAgainst (ip : Interpreter) (l : Loader) (name : String) (ps : List Piece)
    (hw : Faithful w.cache) :
    (ip.compileAgainst l name ps).Meets w
      (fun r w' => Reads w w' ∧ ∀ found code, r = .ok (found, code) →
        Compiles (l.code? w) name ps found code) (fun _ _ => False) := by
  have hgood : Search.Good (l.code? w) { cache := w.cache, found := [] } := ⟨hw.all, .nil⟩
  have hc := compiled_compile (resolves_resolve ip.locator (l.code? w) (ip.locator.size + 2) []) name
    ps hgood
  have hf := (kept_resolve (stable_faithful ip.locator) (l.code? w) (ip.locator.size + 2) []).compile
    name ps (s := { cache := w.cache, found := [] }) hw
  refine Act.meets_get_bind ?_
  simp only [StateT.run] at hc hf
  generalize compile (Interpreter.resolve ip.locator (l.code? w) (ip.locator.size + 2) []) name
    ps { cache := w.cache, found := [] } = q at hc hf ⊢
  obtain ⟨r, s⟩ := q
  refine Act.meets_set_bind (Act.meets_pure ⟨reads_cache hf, fun found code he => ?_⟩)
  cases r with
  | error ds => cases he
  | ok c =>
    cases he
    exact ⟨hc.finds.good.found, (hc.ok code rfl).2.1⟩

/-! ## Outcomes -/

/-- What running a text comes to. -/
inductive Ran (text : String) (history : History) (l : Loader) (w : World) :
    RunResult → World → Prop
  | rejected {ds : List Diagnostic} {w' : World} (hr : Reads w w') :
    Ran text history l w (.rejected ds) w'
  | module {m : Module} {found : List ModuleCode} {code : ModuleCode} {w' : World}
    (ht : Fragment.ofText fragmentSource text = .ok (.module m)) (hr : Reads w w')
    (hc : Compiles (l.code? w) m.name [⟨fragmentSource, m.decls⟩] found code) :
    Ran text history l w (.accepted (.module code.name) (l.extend (found ++ [code]) w').1)
      (l.extend (found ++ [code]) w').2
  | definitions {decls : List Decl} {ps : List Piece} {found : List ModuleCode} {code : ModuleCode}
    {w' : World} (ht : Fragment.ofText fragmentSource text = .ok (.definitions decls))
    (hps : pieces 0 history.program = (ps, [])) (hr : Reads w w')
    (hc : Compiles (l.code? w) definitionsModule (ps ++ [⟨fragmentSource, decls⟩]) found code) :
    Ran text history l w (.accepted .definitions (l.extend found w').1) (l.extend found w').2
  | expression {e : Expr} {ps : List Piece} {found : List ModuleCode} {code : ModuleCode}
    {w' : World} (ht : Fragment.ofText fragmentSource text = .ok (.expression e))
    (hps : pieces 0 history.program = (ps, [])) (hr : Reads w w')
    (hc : Compiles (l.code? w) (scriptName history text)
      (ps ++ [⟨fragmentSource, [.binding (resultBinding e)]⟩]) found code) :
    Ran text history l w
      (.accepted (.expression ⟨scriptName history text, resultField⟩)
        (l.extend (found ++ [code]) w').1)
      (l.extend (found ++ [code]) w').2

variable {l : Loader}

theorem code?_reads {w' : World} (h : Reads w w') : l.code? w' = l.code? w := by
  obtain ⟨_, _, _, _, rfl⟩ := h
  rfl

theorem compiles_compileBehind (ip : Interpreter) (history : History) (l : Loader) (name : String)
    (decls : List Decl) (hw : Faithful w.cache) :
    (ip.compileBehind history l name decls).Meets w
      (fun r w' => Reads w w' ∧ ∀ found code, r = .ok (found, code) →
        ∃ ps, pieces 0 history.program = (ps, []) ∧
          Compiles (l.code? w) name (ps ++ [⟨fragmentSource, decls⟩]) found code)
      (fun _ _ => False) := by
  obtain ⟨w₁, hr, hrun⟩ := run_definitionPieces hw history
  refine Act.meets_bind (Act.meets_of_run hrun ?_)
  generalize pieces 0 history.program = q
  obtain ⟨ps, ds⟩ := q
  simp only
  split
  · rename_i hds
    obtain rfl := List.isEmpty_iff.mp hds
    refine (compiles_compileAgainst ip l name _ hr.faithful).mono ?_ fun _ _ h => h
    rintro r w' ⟨hr', hc⟩
    refine ⟨hr.trans hr', fun found code he => ⟨ps, rfl, ?_⟩⟩
    rw [← code?_reads hr]
    exact hc found code he
  · exact Act.meets_pure ⟨hr, nofun⟩

theorem ran_runFragment (ip : Interpreter) {text : String} {f : Fragment}
    (hf : Fragment.ofText fragmentSource text = .ok f) (history : History) (l : Loader)
    (hw : Faithful w.cache) :
    (ip.runFragment text f history l).Meets w (Ran text history l w) (fun _ _ => False) := by
  unfold runFragment
  split
  · rename_i m
    refine Act.meets_bind ((compiles_compileAgainst ip l m.name _ hw).mono ?_ fun _ _ h => h)
    rintro r w' ⟨hr, hc⟩
    split
    · exact Act.meets_pure (.rejected hr)
    · exact Act.meets_bind (meets_extendLoader _ _ (Act.meets_pure (.module hf hr (hc _ _ rfl))))
  · rename_i decls
    refine Act.meets_bind ((compiles_compileBehind ip history l _ decls hw).mono ?_ fun _ _ h => h)
    rintro r w' ⟨hr, hc⟩
    split
    · exact Act.meets_pure (.rejected hr)
    · obtain ⟨ps, hps, hc⟩ := hc _ _ rfl
      exact Act.meets_bind (meets_extendLoader _ _ (Act.meets_pure (.definitions hf hps hr hc)))
  · rename_i e
    refine Act.meets_bind ((compiles_compileBehind ip history l _ _ hw).mono ?_ fun _ _ h => h)
    rintro r w' ⟨hr, hc⟩
    split
    · exact Act.meets_pure (.rejected hr)
    · obtain ⟨ps, hps, hc⟩ := hc _ _ rfl
      exact Act.meets_bind (meets_extendLoader _ _ (Act.meets_pure (.expression hf hps hr hc)))

theorem reads_inquire (hw : Faithful w.cache) :
    Act.inquire.Meets w (fun _ w' => Reads w w')
      (fun e w' => e = .canceled ∧ Reads w w' ∧ w.context.patience ≠ .endless) :=
  Act.meets_inquire_patient (fun patience hp => ⟨w.cache, patience, hw, hp, rfl⟩)
    fun patience hne => ⟨rfl, ⟨w.cache, patience, hw, fun he => absurd he hne, rfl⟩, hne⟩

theorem Ran.of_reads {text : String} {history : History} {w₁ w' : World} {r : RunResult}
    (hr : Reads w w₁) (h : Ran text history l w₁ r w') : Ran text history l w r w' := by
  have hcode := code?_reads (l := l) hr
  cases h with
  | rejected hr' => exact .rejected (hr.trans hr')
  | module ht hr' hc => exact .module ht (hr.trans hr') (hcode ▸ hc)
  | definitions ht hps hr' hc => exact .definitions ht hps (hr.trans hr') (hcode ▸ hc)
  | expression ht hps hr' hc => exact .expression ht hps (hr.trans hr') (hcode ▸ hc)

/-- A run that has not been called off has one of the outcomes. -/
theorem ran_run (ip : Interpreter) (text : String) (history : History) (l : Loader)
    (hw : Faithful w.cache) :
    (ip.run (.ours (programOf text)) history (some (.ours l))).Meets w (Ran text history l w)
      (fun e w' => e = .canceled ∧ Reads w w' ∧ w.context.patience ≠ .endless) := by
  refine Act.meets_bind ((reads_inquire hw).mono ?_ fun _ _ h => h)
  intro _ w₁ hr
  simp only [programOf]
  split
  · exact Act.meets_pure (.rejected hr)
  · rename_i f hf
    exact (ran_runFragment ip hf history l hr.faithful).mono (fun _ _ h => .of_reads hr h)
      fun _ _ h => h.elim

/-! ## Runs without a search -/

/-- An import that is known, and has not been found besides, is not searched for. -/
theorem run_importAll_known {locator : Locator} {known : String → Option ModuleCode} {fuel : Nat}
    {resolving : List String} {is : List (String × Pos × String)} {s : Search}
    (h : ∀ i ∈ is, (known i.2.2).isSome) (hs : ∀ i ∈ is, among s.found i.2.2 = none) :
    (importAll (resolve locator known (fuel + 1) resolving) is).run s =
      (is.map fun i => (i.2.2, Program.importOf known i.2.2), s) := by
  induction is with
  | nil => rfl
  | cons i is ih =>
    rw [List.forall_mem_cons] at h hs
    obtain ⟨c, hc⟩ := Option.isSome_iff_exists.mp h.1
    have hfound : s.found.find? (·.name == i.2.2) = none := hs.1
    have hone : (resolve locator known (fuel + 1) resolving i.2.2).run s =
        (.exports c.exports, s) := by
      unfold resolve
      simp only [StateT.run_bind, StateT.run_get, pure_bind, hfound, hc]
      rfl
    rw [run_importAll, hone, ih h.2 hs.2]
    simp [Program.importOf, hc]

theorem run_compileAgainst_known (ip : Interpreter) {l : Loader} (name : String) {ps : List Piece}
    (h : ∀ i ∈ Program.imports ps, (l.code? w i.2.2).isSome) :
    (ip.compileAgainst l name ps).run w =
      (.ok ((Program.check name ps (Program.importsAmong (l.code? w) ps)).map ([], ·)), w) := by
  have hrun : compile (resolve ip.locator (l.code? w) (ip.locator.size + 2) []) name ps
      { cache := w.cache, found := [] } =
      (Program.check name ps (Program.importsAmong (l.code? w) ps), ⟨w.cache, []⟩) := by
    have himports : (importAll (resolve ip.locator (l.code? w) (ip.locator.size + 2) [])
        (Program.imports ps)).run ⟨w.cache, []⟩ = _ := run_importAll_known h fun _ _ => rfl
    simp only [StateT.run] at himports
    unfold compile
    simp only [bind, StateT.bind, himports]
    rfl
  unfold compileAgainst
  simp only [Act.run_bind, Act.run_get, hrun, Act.run_set]
  rfl

/-- An expression whose imports are known is accepted if it passes. -/
theorem run_expression_known (ip : Interpreter) {text : String} {history : History} {e : Expr}
    {ps : List Piece} {code : ModuleCode} (hw : Faithful w.cache)
    (hend : w.context.patience = .endless)
    (ht : Fragment.ofText fragmentSource text = .ok (.expression e))
    (hps : pieces 0 history.program = (ps, []))
    (hknown : ∀ i ∈ Program.imports (ps ++ [⟨fragmentSource, [.binding (resultBinding e)]⟩]),
      (l.code? w i.2.2).isSome)
    (hcheck : Program.check (scriptName history text)
      (ps ++ [⟨fragmentSource, [.binding (resultBinding e)]⟩])
      (Program.importsAmong (l.code? w)
        (ps ++ [⟨fragmentSource, [.binding (resultBinding e)]⟩])) = .ok code) :
    ∃ w', Reads w w' ∧ (ip.run (.ours (programOf text)) history (some (.ours l))).run w =
      (.ok (.accepted (.expression ⟨scriptName history text, resultField⟩) (l.extend [code] w').1),
        (l.extend [code] w').2) := by
  obtain ⟨w', hr, hrun⟩ := run_definitionPieces hw history
  have hcode := code?_reads (l := l) hr
  refine ⟨w', hr, ?_⟩
  have hinquire : Act.inquire.run w = (.ok (), w) := by
    obtain ⟨heap, entries, instances, cache, closed, patience⟩ := w
    obtain rfl : patience = .endless := hend
    rfl
  have hbehind : (ip.compileBehind history l (scriptName history text)
      [.binding (resultBinding e)]).run w = (.ok (.ok ([], code)), w') := by
    unfold compileBehind
    rw [Act.run_bind, hrun, hps]
    simp only [List.isEmpty_nil, if_true]
    rw [run_compileAgainst_known ip _ (hcode ▸ hknown), hcode, hcheck]
    rfl
  unfold run
  rw [Act.run_bind, hinquire]
  simp only [programOf, ht, runFragment]
  rw [Act.run_bind, hbehind]
  rfl

end Interpreter

end LazySession

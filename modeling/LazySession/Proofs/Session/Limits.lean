import LazySession.Proofs.Act
import LazySession.Proofs.Eval.Slack
import LazySession.Session.Operation

/-!
# What limits can do

A session is asked the same twice: once with a depth limit and by somebody who may call the work
off, and once with a higher limit and by somebody who never does. `Act.Bounded` relates the two:
everything is the same but for errors of the first that come from its limits.
`Session.bounded_evaluate` says so of evaluating a fragment.
-/

namespace LazySession

/-! ## Errors of limits -/

/-- The limit that an overflow names. -/
def RuntimeFault.limit? : RuntimeFault → Option Nat
  | overflow limit => some limit
  | _ => none

namespace Error

/-- The depth limit that the evaluation ran into. -/
def limit? (e : Error) : Option Nat := e.runtime?.bind (·.fault.limit?)

/-- The evaluation ran into the limit or was called off. -/
def Limited (limit : Nat) (e : Error) : Prop := e.limit? = some limit ∨ e.is .canceled = true

/-- What wraps an error and lets it be seen. -/
structure Wraps (wrap : Error → Error) : Prop where
  limit? (e : Error) : (wrap e).limit? = e.limit?
  canceled (e : Error) : (wrap e).is .canceled = e.is .canceled

theorem wraps_during (activity : Activity) : Wraps (.during activity) :=
  ⟨fun _ => rfl, fun _ => rfl⟩

theorem wraps_evaluation (artifact field : String) : Wraps (.evaluation artifact field) :=
  ⟨fun _ => rfl, fun _ => rfl⟩

theorem Limited.wrap {wrap : Error → Error} (hw : Wraps wrap) {limit : Nat} {e : Error}
    (h : e.Limited limit) : (wrap e).Limited limit := by
  unfold Limited at *
  rwa [hw.limit?, hw.canceled]

end Error

/-! ## Bounded acts -/

/-- The world of somebody who never calls the work off. -/
def World.calm (w : World) : World := { w with context := {} }

section
variable (w : World)

@[simp] theorem World.calm_heap : w.calm.heap = w.heap := rfl

@[simp] theorem World.calm_entries : w.calm.entries = w.entries := rfl

@[simp] theorem World.calm_instances : w.calm.instances = w.instances := rfl

end

namespace Act

variable {α β : Type}

/-- In the world `w` the act `x` does what `y` does there when it is not called off, or it ends by
the limit. An overflow always names the limit. -/
def Bounded (limit : Nat) (w : World) (x y : Act α) : Prop :=
  match x.run w with
  | (.ok a, w') => y.run w.calm = (.ok a, w'.calm)
  | (.error e, w') => e.Limited limit ∨ e.limit? = none ∧ y.run w.calm = (.error e, w'.calm)

section
variable {limit : Nat} {w : World} {x y : Act α} {f g : α → Act β}

theorem Bounded.outcome (h : Bounded limit w x y) :
    ((x.run w).1 = (y.run w.calm).1 ∧ (y.run w.calm).2 = (x.run w).2.calm ∧
        ∀ e, (x.run w).1 = .error e → e.limit? = none) ∨
      ∃ e, (x.run w).1 = .error e ∧ e.Limited limit := by
  unfold Bounded at h
  generalize x.run w = p at h ⊢
  obtain ⟨r, w'⟩ := p
  cases r with
  | ok a =>
    simp only at h
    rw [h]
    exact .inl ⟨rfl, rfl, nofun⟩
  | error e =>
    rcases h with hl | ⟨he, h⟩
    · exact .inr ⟨e, rfl, hl⟩
    · rw [h]
      refine .inl ⟨rfl, rfl, ?_⟩
      rintro _ ⟨⟩
      exact he

theorem bounded_pure (a : α) : Bounded limit w (pure a) (pure a) := rfl

theorem bounded_throw {e : Error} (he : e.limit? = none) :
    Bounded limit w (throw e : Act α) (throw e) := .inr ⟨he, rfl⟩

theorem bounded_bind (h : Bounded limit w x y)
    (hf : ∀ a w', x.run w = (.ok a, w') → Bounded limit w' (f a) (g a)) :
    Bounded limit w (x >>= f) (y >>= g) := by
  unfold Bounded at h ⊢
  rw [run_bind, run_bind]
  cases hx : x.run w with
  | mk r w' =>
    rw [hx] at h
    cases r with
    | ok a =>
      simp only at h ⊢
      rw [h]
      exact hf a w' hx
    | error e =>
      rcases h with h | ⟨he, h⟩
      · exact .inl h
      · exact .inr ⟨he, by rw [h]⟩

theorem bounded_get_bind {f g : World → Act β} (h : Bounded limit w (f w) (g w.calm)) :
    Bounded limit w (get >>= f) (get >>= g) := h

theorem bounded_set_bind {f g : PUnit → Act β} {w' : World}
    (h : Bounded limit w' (f ⟨⟩) (g ⟨⟩)) :
    Bounded limit w (set w' >>= f) (set w'.calm >>= g) := h

theorem bounded_set (w' : World) :
    Bounded limit w (set w' : Act PUnit) (set w'.calm) := by
  unfold Bounded
  rw [run_set, run_set]

theorem bounded_wrap {wrap : Error → Error} (hw : Error.Wraps wrap) (h : Bounded limit w x y) :
    Bounded limit w (tryCatch x fun e => throw (wrap e)) (tryCatch y fun e => throw (wrap e)) := by
  unfold Bounded at h ⊢
  rw [run_tryCatch, run_tryCatch]
  generalize x.run w = p at h
  obtain ⟨r, w'⟩ := p
  cases r with
  | ok a =>
    simp only at h ⊢
    rw [h]
  | error e =>
    rcases h with h | ⟨he, h⟩
    · exact .inl (h.wrap hw)
    · refine .inr ⟨by rw [hw.limit?]; exact he, ?_⟩
      rw [h]
      rfl

theorem bounded_during (activity : Activity) (h : Bounded limit w x y) :
    Bounded limit w (x.during activity) (y.during activity) :=
  bounded_wrap (Error.wraps_during activity) h

theorem bounded_inquire : Bounded limit w inquire inquire := by
  unfold Bounded
  rw [run_inquire, run_inquire]
  cases w.context.patience.inquire.1 with
  | true => exact .inl (.inr rfl)
  | false => rfl

theorem bounded_lock : Bounded limit w Session.lock Session.lock := by
  unfold Session.lock
  refine bounded_get_bind ?_
  by_cases hclosed : w.context.closed = true
  · rw [if_pos hclosed]
    exact .inl (.inr rfl)
  · rw [if_neg hclosed]
    rfl

end

/-- A thunk is forced with the same result, or its evaluation ends by the limit. -/
theorem bounded_force {set set' : Setting} (hlimit : set.limit ≤ set'.limit)
    (hhost : set'.host = set.host) (w : World) (steps : Nat) (v : Value) :
    Bounded set.limit w (evaluate steps (EvalState.force set · v))
      (evaluate steps (EvalState.force set' · v)) := by
  let k : Slack := ⟨set'.limit - set.limit, true⟩
  have hk : set'.limit = set.limit + k.levels := (Nat.add_sub_cancel' hlimit).symm
  have hstart : (start steps w).Eased Eq k (start steps w.calm) := ⟨rfl, rfl⟩
  have hforce := Machine.eased_force Heap.congruence_eq hk hhost hstart v
  have hnames := fun e => @Machine.names_force set (start steps w) v e
  unfold Bounded
  rw [run_evaluate, run_evaluate]
  generalize (start steps w).force set v = p at hforce hnames
  generalize (start steps w.calm).force set' v = p' at hforce
  obtain ⟨r, s⟩ := p
  obtain ⟨r', s'⟩ := p'
  simp only at hforce hnames ⊢
  rcases hforce with ⟨rfl, hheap, hsame⟩ | ⟨e, rfl, hspares⟩
  · have hfinish : finish w.calm s' = (finish w s).calm := by
      rw [hsame]
      simp only [finish, ← hheap]
      rfl
    have hsteps : s'.steps = s.steps := by rw [hsame]
    rename Except RuntimeError Value => r
    cases r with
    | ok v =>
      rw [hfinish, hsteps]
      rfl
    | error e =>
      cases hfault : e.fault with
      | overflow n =>
        refine .inl (.inl ?_)
        rw [← hnames e rfl n hfault]
        simp [Error.limit?, Error.runtime?, RuntimeFault.limit?, hfault]
      | _ =>
        refine .inr ⟨?_, by rw [hfinish]; rfl⟩
        simp [Error.limit?, Error.runtime?, RuntimeFault.limit?, hfault]
  · refine .inl ?_
    rcases hspares with ⟨-, hfault⟩ | ⟨-, hcause⟩
    · exact .inl (by simp [Error.limit?, Error.runtime?, RuntimeFault.limit?, hfault])
    · exact .inr (by simp [Error.is, hcause])

end Act

/-! ## Loading -/

namespace Loader

open Act

variable {set set' : Setting} (hlimit : set.limit ≤ set'.limit) (hhost : set'.host = set.host)
include hlimit hhost

theorem bounded_evalStrict (mod : String) (fields : Table Value) (ds : List Definition) :
    ∀ (steps : Nat) (w : World), Bounded set.limit w (evalStrict set mod fields steps ds)
      (evalStrict set' mod fields steps ds) := by
  induction ds with
  | nil => intro steps w; exact bounded_pure ()
  | cons d ds ih =>
    intro steps w
    simp only [evalStrict]
    split
    · refine bounded_bind (bounded_during _ (bounded_force hlimit hhost w steps _)) ?_
      intro p w' _
      exact ih p.2 w'
    · exact ih steps w

omit hlimit hhost in
theorem bounded_linkImports {limit : Nat} {one one' : String → Act InstanceId}
    (hone : ∀ i w, Bounded limit w (one i) (one' i)) (mod : String) (scope : ScopeId)
    (own : List String) (is : List String) :
    ∀ w, Bounded limit w (linkImports one mod scope own is) (linkImports one' mod scope own is) := by
  induction is with
  | nil => intro w; exact bounded_pure ()
  | cons i is ih =>
    intro w
    refine bounded_bind (bounded_during _ (hone i w)) ?_
    intro inst w' _
    exact bounded_get_bind (bounded_set_bind (ih _))

theorem bounded_makeInstance {one one' : String → Act InstanceId}
    (hone : ∀ i w, Bounded set.limit w (one i) (one' i)) (id : EntryId) (name : String)
    (code : ModuleCode) (w : World) :
    Bounded set.limit w (makeInstance set one id name code)
      (makeInstance set' one' id name code) := by
  unfold makeInstance
  refine bounded_get_bind (bounded_set_bind ?_)
  refine bounded_bind (bounded_linkImports hone name _ _ _ _) ?_
  intro _ w' _
  refine bounded_get_bind (bounded_set_bind ?_)
  refine bounded_bind (bounded_evalStrict hlimit hhost name _ _ 0 _) ?_
  intro _ w'' _
  exact bounded_get_bind (bounded_set_bind (bounded_pure _))

theorem bounded_link (l : Loader) (fuel : Nat) :
    ∀ visiting name w, Bounded set.limit w (link set l fuel visiting name)
      (link set' l fuel visiting name) := by
  induction fuel with
  | zero => intro visiting name w; exact bounded_throw rfl
  | succ fuel ih =>
    intro visiting name w
    unfold link
    refine bounded_get_bind ?_
    simp only [World.calm_entries]
    rcases (l.modules.get? name).bind fun id => (w.entries[id]?).map (id, ·) with _ | ⟨id, entry⟩
    · exact bounded_throw rfl
    · simp only
      split
      · exact bounded_throw rfl
      · cases entry.linked with
        | some inst => exact bounded_pure inst
        | none => exact bounded_makeInstance hlimit hhost (ih _) id name entry.code w

theorem bounded_load (l : Loader) (name : String) (w : World) :
    Bounded set.limit w (l.load set name) (l.load set' name) :=
  bounded_bind bounded_inquire fun _ _ _ => bounded_link hlimit hhost l _ _ _ _

end Loader

theorem Instance.bounded_read {set set' : Setting} (hlimit : set.limit ≤ set'.limit)
    (hhost : set'.host = set.host) (i : Instance) (field : String) (w : World) :
    Act.Bounded set.limit w (i.read set field) (i.read set' field) := by
  unfold Instance.read
  refine Act.bounded_bind Act.bounded_inquire ?_
  intro _ w' _
  cases i.fields.get? field with
  | none => exact Act.bounded_throw rfl
  | some v =>
    refine Act.bounded_bind (Act.bounded_force hlimit hhost w' 0 v) ?_
    intro p w'' _
    exact Act.bounded_get_bind (Act.bounded_pure _)

theorem Instance.bounded_write (i : Instance) (field : String) (v : HostValue) (limit : Nat)
    (w : World) : Act.Bounded limit w (i.write field v) (i.write field v) := by
  unfold Instance.write
  cases i.fields.get? field with
  | none => exact Act.bounded_throw rfl
  | some u =>
    refine Act.bounded_get_bind ?_
    simp only [World.calm_heap]
    cases cell? w.heap u with
    | some c => exact Act.bounded_set _
    | none => exact Act.bounded_throw rfl

/-! ## Runs -/

theorem Loader.extend_calm (l : Loader) (mods : List ModuleCode) (w : World) :
    l.extend mods w.calm = ((l.extend mods w).1, (l.extend mods w).2.calm) := by
  have hfold : ∀ (cs : List ModuleCode) (l : Loader) (w : World),
      cs.foldl refresh (l, w.calm) =
        ((cs.foldl refresh (l, w)).1, (cs.foldl refresh (l, w)).2.calm) := by
    intro cs
    induction cs with
    | nil => intro l w; rfl
    | cons c cs ih =>
      intro l w
      exact ih (refresh (l, w) c).1 (refresh (l, w) c).2
  unfold extend
  split
  · rfl
  · rw [hfold]
    exact hfold _ _ _

namespace Interpreter

open Act

variable (limit : Nat) (w : World)

theorem bounded_interpret (text : String) : Bounded limit w (interpret text) (interpret text) :=
  bounded_get_bind (bounded_set_bind (bounded_pure _))

theorem bounded_definitionPieces (history : History) :
    Bounded limit w (definitionPieces history) (definitionPieces history) :=
  bounded_get_bind (bounded_set_bind (bounded_pure _))

theorem bounded_extendLoader (l : Loader) (mods : List ModuleCode) :
    Bounded limit w (extendLoader l mods) (extendLoader l mods) := by
  unfold extendLoader
  refine bounded_get_bind ?_
  rw [Loader.extend_calm]
  exact bounded_set_bind (bounded_pure _)

variable {ip ip' : Interpreter} (hlocator : ip'.locator = ip.locator)
include hlocator

theorem bounded_compileAgainst (l : Loader) (name : String) (ps : List Piece) :
    Bounded limit w (ip.compileAgainst l name ps) (ip'.compileAgainst l name ps) := by
  unfold compileAgainst
  rw [hlocator]
  exact bounded_get_bind (bounded_set_bind (bounded_pure _))

theorem bounded_compileBehind (history : History) (l : Loader) (name : String) (decls : List Decl) :
    Bounded limit w (ip.compileBehind history l name decls)
      (ip'.compileBehind history l name decls) := by
  unfold compileBehind
  refine bounded_bind (bounded_definitionPieces limit w history) ?_
  intro p w' _
  simp only
  split
  · exact bounded_compileAgainst limit w' hlocator _ _ _
  · exact bounded_pure _

theorem bounded_runFragment (text : String) (f : Fragment) (history : History) (l : Loader) :
    Bounded limit w (ip.runFragment text f history l) (ip'.runFragment text f history l) := by
  cases f with
  | module m =>
    refine bounded_bind (bounded_compileAgainst limit w hlocator _ _ _) ?_
    intro r w' _
    cases r with
    | error ds => exact bounded_pure _
    | ok p => exact bounded_bind (bounded_extendLoader limit w' _ _) fun _ _ _ => bounded_pure _
  | definitions decls =>
    refine bounded_bind (bounded_compileBehind limit w hlocator _ _ _ _) ?_
    intro r w' _
    cases r with
    | error ds => exact bounded_pure _
    | ok p => exact bounded_bind (bounded_extendLoader limit w' _ _) fun _ _ _ => bounded_pure _
  | expression e =>
    refine bounded_bind (bounded_compileBehind limit w hlocator _ _ _ _) ?_
    intro r w' _
    cases r with
    | error ds => exact bounded_pure _
    | ok p => exact bounded_bind (bounded_extendLoader limit w' _ _) fun _ _ _ => bounded_pure _

theorem bounded_run (p : Program) (history : History) (l : Loader) :
    Bounded limit w (ip.engine.run p history l) (ip'.engine.run p history l) := by
  show Bounded limit w (ip.run (.ours p) history (some (.ours l)))
    (ip'.run (.ours p) history (some (.ours l)))
  unfold run
  refine bounded_bind bounded_inquire ?_
  intro _ w' _
  simp only
  cases p.parsed with
  | error es => exact bounded_pure _
  | ok f => exact bounded_runFragment limit w' hlocator _ _ _ _

end Interpreter

/-! ## Fragments -/

/-- The interpreter with another depth limit. -/
def Interpreter.withLimit (ip : Interpreter) (limit : Nat) : Interpreter :=
  { ip with setting := { ip.setting with limit } }

namespace Session

open Act

variable {ip ip' : Interpreter} (g : Generator) (s : Session)
variable (hlimit : ip.setting.limit ≤ ip'.setting.limit) (hhost : ip'.setting.host = ip.setting.host)
include hlimit hhost

theorem bounded_loadInstance (l : Loader) (name : String) (w : World) :
    Bounded ip.setting.limit w (loadInstance ⟨ip.engine, g⟩ l name)
      (loadInstance ⟨ip'.engine, g⟩ l name) := by
  unfold loadInstance
  refine bounded_bind (Loader.bounded_load hlimit hhost l name w) ?_
  intro id w' _
  refine bounded_get_bind ?_
  simp only [World.calm_instances]
  cases w'.instances[id]? with
  | some i => exact bounded_pure i
  | none => exact bounded_throw rfl

omit hlimit hhost in
theorem bounded_injectAll (limit : Nat) (prelude : Instance) (bs : Table Bound) :
    ∀ w, Bounded limit w (injectAll ⟨ip.engine, g⟩ prelude bs)
      (injectAll ⟨ip'.engine, g⟩ prelude bs) := by
  induction bs with
  | nil => intro w; exact bounded_pure ()
  | cons b bs ih =>
    intro w
    exact bounded_bind (bounded_during _ (Instance.bounded_write _ _ _ _ _)) fun _ w' _ => ih w'

theorem bounded_readField (l : Loader) (artifact field : String) (w : World) :
    Bounded ip.setting.limit w (readField ⟨ip.engine, g⟩ s l artifact field)
      (readField ⟨ip'.engine, g⟩ s l artifact field) := by
  have hread : ∀ w, Bounded ip.setting.limit w
      (loadInstance ⟨ip.engine, g⟩ l artifact >>= (·.read ip.setting field))
      (loadInstance ⟨ip'.engine, g⟩ l artifact >>= (·.read ip'.setting field)) := by
    intro w
    refine bounded_bind (bounded_loadInstance g hlimit hhost l artifact w) ?_
    intro i w' _
    exact Instance.bounded_read hlimit hhost i field w'
  unfold readField
  split
  · refine bounded_bind ?_ fun _ w' _ => hread w'
    refine bounded_bind (bounded_during _ (bounded_loadInstance g hlimit hhost l _ w)) ?_
    intro prelude w' _
    exact bounded_injectAll g _ prelude s.bindings w'
  · exact hread w

theorem bounded_readSymbol (sym : Symbol) (l : Loader) (w : World) :
    Bounded ip.setting.limit w (readSymbol ⟨ip.engine, g⟩ s sym l)
      (readSymbol ⟨ip'.engine, g⟩ s sym l) := by
  have hname : ∀ ip : Interpreter, ip.engine.artifactName sym l =
      if l.modules.has sym.artifact then .ok sym.artifact else .error (.notLoaded sym.artifact) :=
    fun _ => rfl
  have hfield : ∀ ip : Interpreter, ip.engine.fieldName sym = .ok sym.field := fun _ => rfl
  unfold readSymbol
  simp only [hname, hfield]
  by_cases h : l.modules.has sym.artifact
  · simp only [h, if_true]
    exact bounded_wrap (Error.wraps_evaluation _ _) (bounded_readField g s hlimit hhost l _ _ w)
  · simp only [h]
    exact bounded_throw rfl

theorem bounded_evaluate (hlocator : ip'.locator = ip.locator) (text : String) (w : World) :
    Bounded ip.setting.limit w (evaluate ⟨ip.engine, g⟩ s text)
      (evaluate ⟨ip'.engine, g⟩ s text) := by
  refine bounded_bind (Interpreter.bounded_interpret _ w text) ?_
  intro p w' _
  refine bounded_bind bounded_lock ?_
  intro _ w'' _
  refine bounded_bind (bounded_during _ (Interpreter.bounded_run _ w'' hlocator p _ _)) ?_
  intro r w''' _
  cases r with
  | rejected ds => exact bounded_throw rfl
  | accepted kind loader =>
    cases kind with
    | module name => exact bounded_pure _
    | definitions => exact bounded_pure _
    | expression sym =>
      exact bounded_bind (bounded_readSymbol g s hlimit hhost sym loader w''')
        fun _ _ _ => bounded_pure _

omit hlimit hhost in
/-- A limit, or somebody who calls the work off, changes nothing about evaluating a fragment but
that it may end in an error of that limit. Where more room does not help, it is such an error that it
ends in. -/
theorem limits_only_fail (ip : Interpreter) (w : World) (text : String) (limit : Nat)
    (hlimit : limit ≤ ip.setting.limit) (context : Context) :
    let free := (evaluate ⟨ip.engine, g⟩ s text).run { w with context := {} }
    let bounded := (evaluate ⟨(ip.withLimit limit).engine, g⟩ s text).run { w with context }
    (bounded.1 = free.1 ∧ free.2 = { bounded.2 with context := {} } ∨
        ∃ e, bounded.1 = .error e ∧ (e.limit? = some limit ∨ e.is .canceled = true)) ∧
      ∀ e n, free.1 = .error e → e.limit? = some n →
        ∃ e', bounded.1 = .error e' ∧ (e'.limit? = some limit ∨ e'.is .canceled = true) := by
  intro free bounded
  have hb := @bounded_evaluate (ip.withLimit limit) ip g s hlimit rfl rfl text { w with context }
  rcases hb.outcome with ⟨hr, hw, hnone⟩ | ⟨e, he, hl⟩
  · refine ⟨.inl ⟨hr, hw⟩, fun e n he hn => ?_⟩
    rw [hnone e (hr.trans he)] at hn
    cases hn
  · exact ⟨.inr ⟨e, he, hl⟩, fun _ _ _ _ => ⟨e, he, hl⟩⟩

omit hlimit hhost in
/-- Two levels are not enough for three operands. -/
theorem limits_only_fail_nested : ∃ (ip : Interpreter) (s : Session) (text : String) (limit : Nat),
    let g := Template.generator {}
    let w : World := { cache := .disabled }
    let bounded := (evaluate ⟨(ip.withLimit limit).engine, g⟩ s text).run w
    limit < ip.setting.limit ∧ ((evaluate ⟨ip.engine, g⟩ s text).run w).1.isOk = true ∧
      ∃ e, bounded.1 = .error e ∧ (e.limit? = some limit ∨ e.is .canceled = true) := by
  obtain ⟨ip, s, text, limit, hlt, hfree, hbounded⟩ :
      ∃ (ip : Interpreter) (s : Session) (text : String) (limit : Nat), limit < ip.setting.limit ∧
        ((evaluate ⟨ip.engine, Template.generator {}⟩ s text).run
          { cache := .disabled }).1.isOk = true ∧
        ((evaluate ⟨(ip.withLimit limit).engine, Template.generator {}⟩ s text).run
          { cache := .disabled }).1.isOk = false :=
    ⟨⟨⟨[], ".mhs", []⟩, ⟨.empty, 10⟩⟩, .fresh (Template.generator {}), "1 + (2 + 3)", 2,
      by decide, by decide +kernel, by decide +kernel⟩
  refine ⟨ip, s, text, limit, hlt, hfree, ?_⟩
  rcases (limits_only_fail (Template.generator {}) s ip { cache := .disabled } text limit (Nat.le_of_lt hlt)
    {}).1 with ⟨hr, -⟩ | h
  · rw [hr, hfree] at hbounded
    cases hbounded
  · exact h

end Session

end LazySession

import LazySession.Host.Craft
import LazySession.Proofs.Session.Requests

/-!
# Sessions that share an interpreter

Any number of sessions, each with a generator of its own, are called in any order. They share the
cache, the heap and the entries of modules.

`Service.failure_changes_nothing`: a call that fails leaves all sessions as they are, and nothing but
the value of an expression is worked out in what has been loaded before.
-/

namespace LazySession

/-! ## Calls -/

/-- What a caller can do with a session. -/
inductive Call
  | ask (r : Request)
  /-- The text is still to be read, which may fail. -/
  | read (source : Except String String)

namespace Interpreter

/-- The fragment that a text is, if it is one. -/
def fragmentOf? (text : String) : Option Fragment := (Fragment.ofText fragmentSource text).toOption

theorem fragmentOf?_eq_some {text : String} {f : Fragment} :
    fragmentOf? text = some f ↔ Fragment.ofText fragmentSource text = .ok f := by
  unfold fragmentOf?
  cases Fragment.ofText fragmentSource text <;> simp [Except.toOption]

end Interpreter

namespace Request

/-- What is answered to a request, and the session after it. -/
def perform (ws : Workshop) (s : Session) : Request → Act (HostValue × Session)
  | bind key value => do return (.nil, ← Session.bind ws s key value)
  | evaluate text => Session.evaluate ws s text
  | program text => Session.evaluateProgram ws s (Interpreter.programOf text)
  | compile text => do
    let _ ← Session.compile ws s text
    return (.nil, s)

end Request

namespace Call

def act (ws : Workshop) (s : Session) : Call → Act (HostValue × Session)
  | ask r => r.perform ws s
  | read source => Session.evaluateFrom ws s source

/-- The text that is to be evaluated. -/
def text? : Call → Option String
  | ask (.evaluate text) | ask (.program text) | read (.ok text) => some text
  | ask (.bind ..) | ask (.compile _) | read (.error _) => none

/-- The fragment that is to be evaluated. -/
def fragment? (c : Call) : Option Fragment := c.text?.bind Interpreter.fragmentOf?

end Call

/-- A call of a session by its number, and how long it may take. -/
structure Visit where
  session : Nat
  context : Context
  call : Call

structure Service where
  sessions : Nat → Session
  world : World

namespace Service

/-- Sessions with the given generators before anything is done. The cache is turned off, or has a
capacity. -/
def start (g : Nat → Generator) (capacity : Option Int) : Service where
  sessions i := .fresh (g i)
  world := { cache := capacity.elim .disabled .ofCapacity }

section
variable (ip : Interpreter) (g : Nat → Generator)

/-- What a call comes to. -/
def outcome (v : Service) (x : Visit) : Except Error (HostValue × Session) × World :=
  (x.call.act ⟨ip.engine, g x.session⟩ (v.sessions x.session)).run
    { v.world with context := x.context }

/-- What is answered to a call. -/
def answer (v : Service) (x : Visit) : Except Error HostValue := (v.outcome ip g x).1.map (·.1)

/-- The sessions after a call: the one that is called is replaced if the call has success. -/
def after (v : Service) (x : Visit) : Service where
  sessions := match (v.outcome ip g x).1 with
    | .ok (_, s) => Function.update v.sessions x.session s
    | .error _ => v.sessions
  world := (v.outcome ip g x).2

def play (v : Service) (xs : List Visit) : Service := xs.foldl (after ip g) v

end

/-- The host makes an object. No session has a part in that. -/
def make (v : Service) (known : Nat → HostValue) (c : Craft) : Service :=
  { v with world := { v.world with heap := (c.make known v.world.heap).2 } }

end Service

/-! ## What is left alone -/

namespace World

/-- Every module that was loaded has the code that it had. -/
def KeepsCode (w w' : World) : Prop :=
  ∀ (id : EntryId) e, w.entries[id]? = some e → ∃ linked, w'.entries[id]? = some { e with linked }

/-- Nothing that was loaded is touched: neither the heap with its thunks and cells, nor instances,
nor the entries that there were. -/
structure Untouched (w w' : World) : Prop where
  heap : w'.heap = w.heap
  instances : w'.instances = w.instances
  entries : ∀ (id : EntryId) e, w.entries[id]? = some e → w'.entries[id]? = some e

variable {w w' w'' : World}

theorem KeepsCode.trans (h : KeepsCode w w') (h' : KeepsCode w' w'') : KeepsCode w w'' := by
  intro id e he
  obtain ⟨linked, he'⟩ := h id e he
  obtain ⟨linked', he''⟩ := h' id _ he'
  exact ⟨linked', he''⟩

theorem KeepsCode.of_entries (h : w'.entries = w.entries) : KeepsCode w w' :=
  fun _ e he => ⟨e.linked, h ▸ he⟩

theorem KeepsCode.keyed (h : KeepsCode w w') {l : Loader} (hk : l.Keyed w) : l.Keyed w' where
  nodup := hk.nodup
  entry p hp := by
    obtain ⟨e, he, hn⟩ := hk.entry p hp
    obtain ⟨linked, he'⟩ := h p.2 e he
    exact ⟨_, he', hn⟩

theorem KeepsCode.code? (h : KeepsCode w w') {l : Loader} (hk : l.Keyed w) (name : String) :
    l.code? w' name = l.code? w name := by
  unfold Loader.code?
  cases hid : l.modules.get? name with
  | none => rfl
  | some id =>
    obtain ⟨e, he, -⟩ := hk.get? hid
    obtain ⟨linked, he'⟩ := h id e he
    simp [he, he']

theorem Untouched.refl (w : World) : Untouched w w := ⟨rfl, rfl, fun _ _ h => h⟩

theorem Untouched.trans (h : Untouched w w') (h' : Untouched w' w'') : Untouched w w'' where
  heap := h'.heap.trans h.heap
  instances := h'.instances.trans h.instances
  entries id e he := h'.entries id e (h.entries id e he)

theorem Untouched.keepsCode (h : Untouched w w') : KeepsCode w w' :=
  fun id e he => ⟨e.linked, h.entries id e he⟩

/-- The texts that have been read are known as what they are, and nothing else has changed but for
new entries. -/
def Compiles (w w' : World) : Prop := Interpreter.Faithful w'.cache ∧ Untouched w w'

/-- A text with the fragment `f` has been worked on. Only for the value of an expression something is
worked out in what has been loaded, which has the same code still. -/
structure Works (f : Option Fragment) (w w' : World) : Prop where
  faithful : Interpreter.Faithful w'.cache
  code : KeepsCode w w'
  untouched : (∀ e, f ≠ some (.expression e)) → Untouched w w'

theorem Compiles.trans (h : Compiles w w') (h' : Compiles w' w'') : Compiles w w'' :=
  ⟨h'.1, h.2.trans h'.2⟩

theorem Compiles.works (h : Compiles w w') (f : Option Fragment) : Works f w w' :=
  ⟨h.1, h.2.keepsCode, fun _ => h.2⟩

theorem Works.of_compiles {f : Option Fragment} (h : Compiles w w') (h' : Works f w' w'') :
    Works f w w'' :=
  ⟨h'.faithful, h.2.keepsCode.trans h'.code, fun hne => h.2.trans (h'.untouched hne)⟩

theorem compiles_reads (h : Interpreter.Reads w w') : Compiles w w' := by
  obtain ⟨_, _, hc, _, rfl⟩ := h
  exact ⟨hc, rfl, rfl, fun _ _ h => h⟩

end World

namespace Loader

open World

theorem untouched_refresh (mods : List ModuleCode) : ∀ lw : Loader × World,
    Untouched lw.2 (mods.foldl refresh lw).2 ∧ (mods.foldl refresh lw).2.cache = lw.2.cache := by
  induction mods with
  | nil => exact fun lw => ⟨.refl _, rfl⟩
  | cons c mods ih =>
    rintro ⟨l, w⟩
    obtain ⟨hu, hc⟩ := ih (refresh (l, w) c)
    have hone : Untouched w (refresh (l, w) c).2 := by
      refine ⟨rfl, rfl, fun id e he => ?_⟩
      have hlt := (Array.getElem?_eq_some_iff.mp he).1
      simp only [refresh, Array.getElem?_push]
      rw [if_neg (Nat.ne_of_lt hlt), he]
    exact ⟨hone.trans hu, hc⟩

theorem untouched_extend (l : Loader) (mods : List ModuleCode) (w : World) :
    Untouched w (l.extend mods w).2 ∧ (l.extend mods w).2.cache = w.cache := by
  unfold extend
  split
  · exact ⟨.refl w, rfl⟩
  · obtain ⟨hu, hc⟩ := untouched_refresh mods (l, w)
    obtain ⟨hu', hc'⟩ := untouched_refresh _ (mods.foldl refresh (l, w))
    exact ⟨hu.trans hu', hc'.trans hc⟩

theorem compiles_extend {w : World} (hw : Interpreter.Faithful w.cache) (l : Loader)
    (mods : List ModuleCode) : Compiles w (l.extend mods w).2 := by
  obtain ⟨hu, hc⟩ := untouched_extend l mods w
  refine ⟨?_, hu⟩
  rw [hc]
  exact hw

theorem keyed_extend {w : World} {l : Loader} (hk : l.Keyed w) (mods : List ModuleCode) :
    (l.extend mods w).1.Keyed (l.extend mods w).2 := by
  obtain ⟨_, _, r, -⟩ := renews_extend hk mods
  exact r.keyed

/-- Evaluation changes neither the cache nor the code of modules. -/
def Leaves (w w' : World) : Prop := w'.cache = w.cache ∧ KeepsCode w w'

theorem leaves_of_eq {w w' : World} (hc : w'.cache = w.cache) (he : w'.entries = w.entries) :
    Leaves w w' := ⟨hc, .of_entries he⟩

theorem kept_leaves (set : Setting) : Kept set Leaves where
  refl w := leaves_of_eq rfl rfl
  trans h h' := ⟨h'.1.trans h.1, h.2.trans h'.2⟩
  inquire _ _ _ := leaves_of_eq rfl rfl
  scope _ := leaves_of_eq rfl rfl
  imports _ _ _ _ _ := leaves_of_eq rfl rfl
  define _ _ _ := leaves_of_eq rfl rfl
  force _ _ _ := leaves_of_eq rfl rfl
  link w id inst := by
    refine ⟨rfl, fun id' e he => ?_⟩
    simp only [setInstance, Array.getElem?_modify]
    split
    · exact ⟨_, by rw [he]; rfl⟩
    · exact ⟨e.linked, he⟩

end Loader

/-! ## Operations -/

namespace Session

open Interpreter World
open Loader (Holding)

variable {ip : Interpreter} {g : Generator} {s : Session} {w w' : World} {text : String}

theorem compiles_ran {l : Loader} {r : RunResult} (h : Ran text s.history l w r w') :
    Compiles w w' ∧ ∀ kind l', r = .accepted kind l' → l.Keyed w → l'.Keyed w' := by
  have hextend : ∀ {w₁ : World} (mods : List ModuleCode), Reads w w₁ →
      Compiles w (l.extend mods w₁).2 ∧ (l.Keyed w → (l.extend mods w₁).1.Keyed (l.extend mods w₁).2) :=
    fun mods hr => ⟨(compiles_reads hr).trans (Loader.compiles_extend hr.faithful _ _),
      fun hk => Loader.keyed_extend ((compiles_reads hr).2.keepsCode.keyed hk) mods⟩
  cases h with
  | rejected hr => exact ⟨compiles_reads hr, nofun⟩
  | @module _ found code _ _ hr _ =>
    obtain ⟨hc, hk⟩ := hextend (found ++ [code]) hr
    exact ⟨hc, by rintro _ _ ⟨⟩; exact hk⟩
  | @definitions _ _ found _ _ _ _ hr _ =>
    obtain ⟨hc, hk⟩ := hextend found hr
    exact ⟨hc, by rintro _ _ ⟨⟩; exact hk⟩
  | @expression _ _ found code _ _ _ hr _ =>
    obtain ⟨hc, hk⟩ := hextend (found ++ [code]) hr
    exact ⟨hc, by rintro _ _ ⟨⟩; exact hk⟩

theorem compiles_run (ip : Interpreter) (text : String) (s : Session) (hw : Faithful w.cache) :
    (ip.engine.run (programOf text) s.history s.loader).Meets w
      (fun r w' => Ran text s.history s.loader w r w' ∧ Compiles w w' ∧
        ∀ kind l, r = .accepted kind l → s.loader.Keyed w → l.Keyed w')
      (fun _ w' => Compiles w w') :=
  (ran_run ip text s.history s.loader hw).mono (fun _ _ h => ⟨h, compiles_ran h⟩)
    fun _ _ h => compiles_reads h.2.1

theorem serves_leaves (ws : Workshop) (l : Loader) : Serves ws l Loader.Leaves where
  refl := (Loader.kept_leaves ws.engine.setting).refl
  trans := (Loader.kept_leaves ws.engine.setting).trans
  load name := (Loader.kept_leaves _).load l name
  read i field := (Loader.kept_leaves _).read i field
  write i field v w := by
    unfold Instance.write
    split
    · exact Act.meets_throw (Loader.leaves_of_eq rfl rfl)
    · refine Act.meets_get_bind ?_
      split
      · exact Act.meets_set (Loader.leaves_of_eq rfl rfl)
      · exact Act.meets_throw (Loader.leaves_of_eq rfl rfl)

/-- What a text that is accepted makes of the session. -/
inductive Takes (text : String) (s : Session) : Session → Prop
  | module {m : Module} (l : Loader) (ht : Fragment.ofText fragmentSource text = .ok (.module m)) :
    Takes text s { s with loader := l }
  | definitions {ds : List Decl} (ht : Fragment.ofText fragmentSource text = .ok (.definitions ds)) :
    Takes text s { s with history := s.history.prepend [text] }
  | expression {e : Expr} (ht : Fragment.ofText fragmentSource text = .ok (.expression e)) :
    Takes text s s

theorem takes_evaluateProgram (ip : Interpreter) (g : Generator) (s : Session) (text : String)
    (hw : Faithful w.cache) :
    (evaluateProgram ⟨ip.engine, g⟩ s (programOf text)).Meets w
      (fun r w' => Takes text s r.2 ∧ Works (fragmentOf? text) w w' ∧
        (s.loader.Keyed w → r.2.loader.Keyed w'))
      (fun _ w' => Works (fragmentOf? text) w w') := by
  have hstay : Compiles w w := ⟨hw, .refl w⟩
  refine Act.meets_bind (meets_lock ?_ (hstay.works _))
  refine Act.meets_bind (Act.meets_during ((compiles_run ip text s hw).mono ?_
    fun _ _ h => h.works _))
  rintro r w₁ ⟨hran, hcomp, hkeyed⟩
  have hworks := hcomp.works (fragmentOf? text)
  cases hran with
  | rejected _ => exact Act.meets_throw hworks
  | module ht _ _ => exact Act.meets_pure ⟨.module _ ht, hworks, hkeyed _ _ rfl⟩
  | definitions ht _ _ _ => exact Act.meets_pure ⟨.definitions ht, hworks, hworks.code.keyed⟩
  | @expression e _ found code w₂ ht _ _ _ =>
    have hread : ∀ {w' : World}, Loader.Leaves (s.loader.extend (found ++ [code]) w₂).2 w' →
        Works (fragmentOf? text) w w' := by
      intro w' he
      refine ⟨?_, hworks.code.trans he.2, fun hne => absurd ?_ (hne e)⟩
      · rw [he.1]
        exact hcomp.1
      · rw [fragmentOf?, ht]
        rfl
    refine Act.meets_bind (((serves_leaves _ _).readSymbol s _ _).mono ?_ fun _ _ h => hread h)
    exact fun _ _ h => Act.meets_pure ⟨.expression ht, hread h, (hread h).code.keyed⟩

theorem takes_evaluate (ip : Interpreter) (g : Generator) (s : Session) (text : String)
    (hw : Faithful w.cache) :
    (evaluate ⟨ip.engine, g⟩ s text).Meets w
      (fun r w' => Takes text s r.2 ∧ Works (fragmentOf? text) w w' ∧
        (s.loader.Keyed w → r.2.loader.Keyed w'))
      (fun _ w' => Works (fragmentOf? text) w w') := by
  obtain ⟨w₁, hr, hrun⟩ := run_interpret hw text
  have h₁ := compiles_reads hr
  refine Act.meets_bind (Act.meets_of_run hrun ?_)
  refine (takes_evaluateProgram ip g s text hr.faithful).mono ?_ fun _ _ h => .of_compiles h₁ h
  rintro r w' ⟨htakes, hworks, hkeyed⟩
  exact ⟨htakes, .of_compiles h₁ hworks, fun hk => hkeyed (h₁.2.keepsCode.keyed hk)⟩

theorem compiles_compile (ip : Interpreter) (g : Generator) (s : Session) (text : String)
    (hw : Faithful w.cache) :
    (compile ⟨ip.engine, g⟩ s text).Meets w (fun _ w' => Compiles w w')
      (fun _ w' => Compiles w w') := by
  obtain ⟨w₁, hr, hrun⟩ := run_interpret hw text
  have h₁ := compiles_reads hr
  refine Act.meets_bind (Act.meets_of_run hrun (Act.meets_bind (Act.meets_during
    ((compiles_run ip text s hr.faithful).mono ?_ fun _ _ h => h₁.trans h))))
  rintro r w' ⟨-, h, -⟩
  cases r with
  | rejected ds => exact Act.meets_throw (h₁.trans h)
  | accepted kind l => exact Act.meets_pure (h₁.trans h)

/-- A value has been bound: the session has been changed as the generator says, and its prelude has
been loaded. -/
inductive Binds (g : Generator) (key : String) (v : HostValue) (s : Session) : Session → Prop
  | mk {k : BindKey} {next : Session} (l : Loader) (hk : BindKey.ofText key = .ok k)
    (hnext : bindState g s k v = .ok next) :
    Binds g key v s { next with loader := l, reloads := next.reloads + 1 }

theorem compiles_reload (ip : Interpreter) (g : Generator) (s : Session) (hw : Faithful w.cache) :
    (reload ⟨ip.engine, g⟩ s).Meets w
      (fun s' w' => (∃ l, s' = { s with loader := l, reloads := s.reloads + 1 }) ∧ Compiles w w' ∧
        (s.loader.Keyed w → s'.loader.Keyed w'))
      (fun _ w' => Compiles w w') := by
  obtain ⟨w₁, hr, hrun⟩ := run_interpret hw s.prelude
  have h₁ := compiles_reads hr
  refine Act.meets_bind (Act.meets_of_run hrun (Act.meets_bind (Act.meets_during
    ((compiles_run ip s.prelude s hr.faithful).mono ?_ fun _ _ h => h₁.trans h))))
  rintro r w' ⟨-, h, hkeyed⟩
  match r with
  | .rejected _ => exact Act.meets_throw (h₁.trans h)
  | .accepted (.module _) l =>
    exact Act.meets_pure ⟨⟨l, rfl⟩, h₁.trans h, fun hk => hkeyed _ l rfl (h₁.2.keepsCode.keyed hk)⟩
  | .accepted .definitions _ => exact Act.meets_throw (h₁.trans h)
  | .accepted (.expression _) _ => exact Act.meets_throw (h₁.trans h)

/-- A name is bound again, or for the first time. -/
theorem bindState_ok {k : BindKey} {v : HostValue} {next : Session}
    (h : bindState g s k v = .ok next) :
    (∃ old, s.bindings.get? k.name = some old ∧
      next = { s with bindings := s.bindings.put k.name ⟨old.type, v⟩ }) ∨
    (∃ d, s.bindings.get? k.name = none ∧ g.declare k.name k.type = .ok d ∧ next = { s with
      history := s.history.prepend
        (d.config :: if s.bindings.isEmpty then [g.preludeImport] else [])
      prelude := s.prelude ++ d.prelude
      bindings := s.bindings.put k.name ⟨k.type, v⟩ }) := by
  unfold bindState at h
  cases hold : s.bindings.get? k.name with
  | none =>
    rw [hold] at h
    simp only [bindNew] at h
    cases hd : g.declare k.name k.type with
    | error e =>
      rw [hd] at h
      cases h
    | ok d =>
      rw [hd] at h
      exact .inr ⟨d, rfl, rfl, (Except.ok.inj h).symm⟩
  | some old =>
    rw [hold] at h
    simp only at h
    split at h
    · cases h
    · exact .inl ⟨old, rfl, (Except.ok.inj h).symm⟩

theorem binds_bind (ip : Interpreter) (g : Generator) (s : Session) (key : String) (v : HostValue)
    (hw : Faithful w.cache) :
    (bind ⟨ip.engine, g⟩ s key v).Meets w
      (fun s' w' => Binds g key v s s' ∧ Compiles w w' ∧ (s.loader.Keyed w → s'.loader.Keyed w'))
      (fun _ w' => Compiles w w') := by
  have hstay : Compiles w w := ⟨hw, .refl w⟩
  refine Act.meets_bind (meets_lock ?_ hstay)
  cases hk : BindKey.ofText key with
  | error e => exact Act.meets_throw hstay
  | ok k =>
    cases hnext : bindState g s k v with
    | error e =>
      simp only [hnext]
      exact Act.meets_throw hstay
    | ok next =>
      simp only [hnext]
      refine Act.meets_tryCatch ((compiles_reload ip g next hw).mono ?_
        fun _ _ h => Act.meets_throw h)
      rintro s' w' ⟨⟨l, rfl⟩, h, hkeyed⟩
      have hloader : next.loader = s.loader := by
        rcases bindState_ok hnext with ⟨_, _, rfl⟩ | ⟨_, _, _, rfl⟩ <;> rfl
      exact ⟨.mk l hk hnext, h, fun hk => hkeyed (hloader ▸ hk)⟩

end Session

/-! ## Calls, one and many -/

namespace Call

open Interpreter World

/-- What a call that has success makes of the session. -/
def Does (g : Generator) (s : Session) (c : Call) (s' : Session) : Prop :=
  match c with
  | ask (.bind key value) => s.Binds g key value s'
  | ask (.compile _) => s' = s
  | ask (.evaluate text) | ask (.program text) | read (.ok text) => s.Takes text s'
  | read (.error _) => False

theorem does_act (ip : Interpreter) (g : Generator) (s : Session) (c : Call) {w : World}
    (hw : Faithful w.cache) :
    (c.act ⟨ip.engine, g⟩ s).Meets w
      (fun r w' => c.Does g s r.2 ∧ Works c.fragment? w w' ∧ (s.loader.Keyed w → r.2.loader.Keyed w'))
      (fun _ w' => Works c.fragment? w w') := by
  match c with
  | ask (.bind key value) =>
    refine Act.meets_bind ((Session.binds_bind ip g s key value hw).mono ?_ fun _ _ h => h.works _)
    exact fun _ _ h => Act.meets_pure ⟨h.1, h.2.1.works _, h.2.2⟩
  | ask (.compile text) =>
    refine Act.meets_bind ((Session.compiles_compile ip g s text hw).mono ?_ fun _ _ h => h.works _)
    exact fun _ _ h => Act.meets_pure ⟨rfl, h.works _, h.2.keepsCode.keyed⟩
  | ask (.evaluate text) => exact Session.takes_evaluate ip g s text hw
  | ask (.program text) => exact Session.takes_evaluateProgram ip g s text hw
  | read (.ok text) => exact Session.takes_evaluate ip g s text hw
  | read (.error text) =>
    have hstay : Compiles w w := ⟨hw, .refl w⟩
    exact Act.meets_throw (hstay.works _)

end Call

namespace Service

open Interpreter World

variable {ip : Interpreter} {g : Nat → Generator} {v : Service} {x : Visit}

/-- The cache is faithful, and every session holds modules that are there. -/
structure Sound (v : Service) : Prop where
  faithful : Faithful v.world.cache
  keyed : ∀ i, (v.sessions i).loader.Keyed v.world

/-- A call that has success does what it should, and any call works only on what it may. -/
theorem does_outcome (ip : Interpreter) (g : Nat → Generator) (hv : v.Sound) (x : Visit) :
    (∀ r, (v.outcome ip g x).1 = .ok r →
      x.call.Does (g x.session) (v.sessions x.session) r.2 ∧
        r.2.loader.Keyed (v.after ip g x).world) ∧
      Works x.call.fragment? v.world (v.after ip g x).world := by
  have hact := Call.does_act ip (g x.session) (v.sessions x.session) x.call
    (w := { v.world with context := x.context }) hv.faithful
  have hcontext : Compiles v.world { v.world with context := x.context } :=
    ⟨hv.faithful, rfl, rfl, fun _ _ h => h⟩
  unfold Act.Meets at hact
  unfold after outcome
  generalize (x.call.act ⟨ip.engine, g x.session⟩ (v.sessions x.session)).run
    { v.world with context := x.context } = p at hact ⊢
  obtain ⟨r, w'⟩ := p
  cases r with
  | ok r =>
    refine ⟨fun r' he => ?_, .of_compiles hcontext hact.2.1⟩
    obtain rfl := Except.ok.inj he
    exact ⟨hact.1, hact.2.2 (hcontext.2.keepsCode.keyed (hv.keyed x.session))⟩
  | error e => exact ⟨nofun, .of_compiles hcontext hact⟩

theorem sound_start (g : Nat → Generator) (capacity : Option Int) : (start g capacity).Sound where
  faithful := by cases capacity <;> exact faithful_empty rfl
  keyed _ := Loader.keyed_empty _

theorem sound_after (hv : v.Sound) (x : Visit) : (v.after ip g x).Sound := by
  obtain ⟨hdoes, hworks⟩ := does_outcome ip g hv x
  refine ⟨hworks.faithful, fun i => ?_⟩
  have hkeep := hworks.code.keyed (hv.keyed i)
  cases hr : (v.outcome ip g x).1 with
  | error e => simpa only [after, hr] using hkeep
  | ok r =>
    by_cases hi : i = x.session
    · subst hi
      simpa only [after, hr, Function.update_self] using (hdoes r hr).2
    · simpa only [after, hr, Function.update_of_ne hi] using hkeep

theorem sound_play (ip : Interpreter) (g : Nat → Generator) (xs : List Visit) :
    ∀ {v : Service}, v.Sound → (v.play ip g xs).Sound := by
  induction xs with
  | nil => exact fun hv => hv
  | cons x xs ih => exact fun hv => ih (sound_after hv x)

theorem sessions_after_error {e : Error} (h : v.answer ip g x = .error e) :
    (v.after ip g x).sessions = v.sessions := by
  unfold answer at h
  unfold after
  cases hr : (v.outcome ip g x).1 with
  | ok r =>
    rw [hr] at h
    cases h
  | error e => rfl

theorem sessions_after_compile (hv : v.Sound) {text : String}
    (hx : x.call = .ask (.compile text)) : (v.after ip g x).sessions = v.sessions := by
  have hdoes := (does_outcome ip g hv x).1
  unfold after
  cases hr : (v.outcome ip g x).1 with
  | ok r =>
    obtain ⟨_, s⟩ := r
    have hs := (hdoes _ hr).1
    rw [hx] at hs
    obtain rfl : s = v.sessions x.session := hs
    exact Function.update_eq_self _ _
  | error e => rfl

/-- A call that fails, and one that only compiles, leaves every session as it was, and its loader
with the code that it had; and unless it is an expression that is evaluated, no entry, instance,
thunk or cell that there was is touched. -/
theorem failure_changes_nothing (ip : Interpreter) (g : Nat → Generator) (capacity : Option Int)
    (xs : List Visit) (x : Visit) :
    let v := (start g capacity).play ip g xs
    ((∃ e, v.answer ip g x = .error e) ∨ (∃ text, x.call = .ask (.compile text)) →
      (v.after ip g x).sessions = v.sessions ∧
      ∀ i name, (v.sessions i).loader.code? (v.after ip g x).world name =
        (v.sessions i).loader.code? v.world name) ∧
    ((∀ e, x.call.fragment? ≠ some (.expression e)) →
      Untouched v.world (v.after ip g x).world) := by
  intro v
  have hv : v.Sound := sound_play ip g xs (sound_start g capacity)
  have hworks := (does_outcome ip g hv x).2
  refine ⟨fun h => ⟨?_, fun i name => hworks.code.code? (hv.keyed i) name⟩, hworks.untouched⟩
  rcases h with ⟨e, he⟩ | ⟨text, hx⟩
  · exact sessions_after_error he
  · exact sessions_after_compile hv hx

/-- A name is bound to an integer, used in a definition and then bound to a text. -/
theorem failure_changes_nothing_mismatch : ∃ (xs : List Visit) (x : Visit),
    let g := fun _ => Template.generator {}
    let v := (start g none).play Session.plain g xs
    xs.length = 2 ∧ (v.answer Session.plain g x).isOk = false ∧
      (v.after Session.plain g x).sessions = v.sessions ∧
      Untouched v.world (v.after Session.plain g x).world := by
  obtain ⟨xs, x, hlength, htext, hfails⟩ : ∃ (xs : List Visit) (x : Visit),
      xs.length = 2 ∧ x.call.text? = none ∧ (((start (fun _ => Template.generator {}) none).play
        Session.plain (fun _ => Template.generator {}) xs).answer Session.plain
          (fun _ => Template.generator {}) x).isOk = false :=
    ⟨[⟨0, {}, .ask (.bind "x :: Int" (.data (.ofInt 1)))⟩, ⟨0, {}, .ask (.evaluate "y = x")⟩],
      ⟨0, {}, .ask (.bind "x :: String" (.data (.ofText "1")))⟩, by decide +kernel⟩
  obtain ⟨hsessions, huntouched⟩ :=
    failure_changes_nothing Session.plain (fun _ => Template.generator {}) none xs x
  refine ⟨xs, x, hlength, hfails, (hsessions (.inl ?_)).1, huntouched ?_⟩
  · cases he : ((start _ none).play Session.plain _ xs).answer Session.plain _ x with
    | error e => exact ⟨e, rfl⟩
    | ok r =>
      rw [he] at hfails
      cases hfails
  · simp [Call.fragment?, htext]

end Service

end LazySession

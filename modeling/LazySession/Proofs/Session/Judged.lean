import LazySession.Proofs.Interpreter.Transparent
import LazySession.Proofs.Session.Service

/-!
# Sessions with a truthful cache

Whatever sessions do, the cache that they share holds for every key what reading gives:
`Service.truthful_play`. So what becomes of a text in a session is the verdict on it:
`Session.compile_isOk`, `Session.bind_ok`.
-/

namespace LazySession

namespace Interpreter

variable {w : World}

theorem truthful_interpret (hw : Truthful w.cache) (text : String) : ∃ cache, Truthful cache ∧
    (interpret text).run w = (.ok (programOf text), { w with cache }) := by
  obtain ⟨he, hc⟩ := truthful_readFragment hw plain_fragmentSource text
  refine ⟨_, hc, ?_⟩
  rw [programOf, ← he]
  rfl

/-- What a run comes to by the verdict on its text. -/
inductive Judged (ip : Interpreter) (text : String) (history : History) (l : Loader) (w : World) :
    RunResult → World → Prop
  | rejected {ds : List Diagnostic} {cache : Cache Parsed} (hc : Truthful cache)
    (hv : ip.verdict (l.code? w) history text = .error ds) :
    Judged ip text history l w (.rejected ds) (w.read cache)
  | accepted {kind : SourceKind} {mods : List ModuleCode} {cache : Cache Parsed}
    (hc : Truthful cache) (hv : ip.verdict (l.code? w) history text = .ok (kind, mods)) :
    Judged ip text history l w (.accepted kind (l.extend mods (w.read cache)).1)
      (l.extend mods (w.read cache)).2

theorem Judged.truthful {ip : Interpreter} {text : String} {history : History} {l : Loader}
    {r : RunResult} {w' : World} (h : Judged ip text history l w r w') : Truthful w'.cache := by
  cases h with
  | rejected hc _ => exact hc
  | accepted hc _ =>
    rw [(Loader.untouched_extend _ _ _).2]
    exact hc

theorem judged_run (ip : Interpreter) (text : String) (history : History) (l : Loader)
    (hw : Truthful w.cache) :
    (ip.engine.run (programOf text) history l).Meets w (Judged ip text history l w)
      (fun e w' => e = .canceled ∧ Truthful w'.cache ∧ w.context.patience.inquire.1 = true) := by
  obtain ⟨cache, hc, hrun⟩ := run_eq ip text history l hw
  change (ip.run (.ours (programOf text)) history (some (.ours l))).Meets w _ _
  unfold Act.Meets
  rw [hrun]
  cases hp : w.context.patience.inquire.1 with
  | true => exact ⟨rfl, hc, rfl⟩
  | false =>
    cases hv : ip.verdict (l.code? w) history text with
    | error ds => exact .rejected hc hv
    | ok v => exact .accepted hc hv

end Interpreter

namespace Session

open Interpreter

variable {ip : Interpreter} {g : Generator} {s : Session} {w : World}

theorem truthful_evaluateProgram (ip : Interpreter) (g : Generator) (s : Session) (text : String)
    (hw : Truthful w.cache) :
    (evaluateProgram ⟨ip.engine, g⟩ s (programOf text)).Meets w (fun _ w' => Truthful w'.cache)
      (fun _ w' => Truthful w'.cache) := by
  refine Act.meets_bind (meets_lock ?_ hw)
  refine Act.meets_bind (Act.meets_during ((judged_run ip text s.history s.loader hw).mono
    (fun r w₁ hj => ?_) fun _ _ h => h.2.1))
  have h₁ := hj.truthful
  match r with
  | .rejected _ => exact Act.meets_throw h₁
  | .accepted (.module _) _ => exact Act.meets_pure h₁
  | .accepted .definitions _ => exact Act.meets_pure h₁
  | .accepted (.expression sym) l =>
    -- only the heap and the instances are worked on
    refine Act.meets_bind (((serves_leaves _ l).readSymbol s sym w₁).mono ?_ ?_)
    · exact fun _ _ h => Act.meets_pure (h.1 ▸ h₁)
    · exact fun _ _ h => h.1 ▸ h₁

theorem truthful_evaluate (ip : Interpreter) (g : Generator) (s : Session) (text : String)
    (hw : Truthful w.cache) :
    (evaluate ⟨ip.engine, g⟩ s text).Meets w (fun _ w' => Truthful w'.cache)
      (fun _ w' => Truthful w'.cache) := by
  obtain ⟨cache, hc, hrun⟩ := truthful_interpret hw text
  exact Act.meets_bind (Act.meets_of_run hrun
    (truthful_evaluateProgram ip g s text (w := { w with cache }) hc))

/-- Whether a text compiles is up to the verdict on it, unless there is no patience. -/
theorem judged_compile (ip : Interpreter) (g : Generator) (s : Session) (text : String)
    (hw : Truthful w.cache) :
    (compile ⟨ip.engine, g⟩ s text).Meets w
      (fun _ w' => Truthful w'.cache ∧
        (ip.verdict (s.loader.code? w) s.history text).isOk = true)
      (fun _ w' => Truthful w'.cache ∧ (w.context.patience = .endless →
        (ip.verdict (s.loader.code? w) s.history text).isOk = false)) := by
  obtain ⟨cache, hc, hrun⟩ := truthful_interpret hw text
  refine Act.meets_bind (Act.meets_of_run hrun (Act.meets_bind (Act.meets_during
    ((judged_run ip text s.history s.loader (w := { w with cache }) hc).mono ?_ ?_))))
  · intro r w' hj
    have h' := hj.truthful
    cases hj with
    | rejected _ hv =>
      have hv : ip.verdict (s.loader.code? w) s.history text = _ := hv
      exact Act.meets_throw ⟨h', fun _ => by rw [hv]; rfl⟩
    | accepted _ hv =>
      have hv : ip.verdict (s.loader.code? w) s.history text = _ := hv
      exact Act.meets_pure ⟨h', by rw [hv]; rfl⟩
  · rintro _ w' ⟨-, h', hp⟩
    refine ⟨h', fun he => ?_⟩
    have hp : w.context.patience.inquire.1 = true := hp
    rw [he] at hp
    cases hp

theorem compile_isOk (ip : Interpreter) (g : Generator) (s : Session) (text : String)
    (hw : Truthful w.cache) (hend : w.context.patience = .endless) :
    ((compile ⟨ip.engine, g⟩ s text).run w).1.isOk =
      (ip.verdict (s.loader.code? w) s.history text).isOk := by
  have h := judged_compile ip g s text hw
  unfold Act.Meets at h
  generalize (compile ⟨ip.engine, g⟩ s text).run w = p at h ⊢
  obtain ⟨r, w'⟩ := p
  cases r with
  | ok p => exact h.2.symm
  | error e => exact (h.2 hend).symm

/-- A value has been bound: by the verdict on the prelude, this is a module, and it has been put into
the loader. -/
inductive Rebound (ip : Interpreter) (g : Generator) (k : BindKey) (v : HostValue) (s : Session)
    (w : World) : Session → World → Prop
  | mk {next : Session} {name : String} {mods : List ModuleCode} {w' : World}
    (hnext : bindState g s k v = .ok next) (hw' : Truthful w'.cache) (he : w'.entries = w.entries)
    (hv : ip.verdict (s.loader.code? w) next.history next.prelude = .ok (.module name, mods)) :
    Rebound ip g k v s w
      { next with loader := (s.loader.extend mods w').1, reloads := next.reloads + 1 }
      (s.loader.extend mods w').2

theorem Rebound.truthful {k : BindKey} {v : HostValue} {s' : Session} {w' : World}
    (h : Rebound ip g k v s w s' w') : Truthful w'.cache := by
  obtain ⟨-, hw', -, -⟩ := h
  rw [(Loader.untouched_extend _ _ _).2]
  exact hw'

theorem loader_bindState {k : BindKey} {v : HostValue} {next : Session}
    (h : bindState g s k v = .ok next) : next.loader = s.loader := by
  rcases bindState_ok h with ⟨_, _, rfl⟩ | ⟨_, _, _, rfl⟩ <;> rfl

theorem rebound_bind (ip : Interpreter) (g : Generator) (s : Session) (key : String) (v : HostValue)
    (hw : Truthful w.cache) :
    (bind ⟨ip.engine, g⟩ s key v).Meets w
      (fun s' w' => ∃ k, BindKey.ofText key = .ok k ∧ Rebound ip g k v s w s' w')
      (fun _ w' => Truthful w'.cache) := by
  refine Act.meets_bind (meets_lock ?_ hw)
  cases hk : BindKey.ofText key with
  | error e => exact Act.meets_throw hw
  | ok k =>
    cases hnext : bindState g s k v with
    | error e =>
      simp only [hnext]
      exact Act.meets_throw hw
    | ok next =>
      simp only [hnext]
      refine Act.meets_tryCatch ?_
      obtain ⟨cache, hc, hrun⟩ := truthful_interpret hw next.prelude
      refine Act.meets_bind (Act.meets_of_run hrun (Act.meets_bind (Act.meets_during
        ((judged_run ip next.prelude next.history next.loader (w := { w with cache }) hc).mono ?_
          fun _ _ h => Act.meets_throw h.2.1))))
      intro r w' hj
      have h' := hj.truthful
      rw [loader_bindState hnext] at hj
      cases hj with
      | rejected _ _ => exact Act.meets_throw (Act.meets_throw h')
      | @accepted kind mods _ hc hv =>
        cases kind with
        | module name =>
          refine Act.meets_pure ⟨k, rfl, ?_⟩
          exact .mk hnext hc rfl hv
        | definitions => exact Act.meets_throw (Act.meets_throw h')
        | expression sym => exact Act.meets_throw (Act.meets_throw h')

end Session

theorem Call.truthful_act (ip : Interpreter) (g : Generator) (s : Session) (c : Call) {w : World}
    (hw : Interpreter.Truthful w.cache) :
    (c.act ⟨ip.engine, g⟩ s).Meets w (fun _ w' => Interpreter.Truthful w'.cache)
      (fun _ w' => Interpreter.Truthful w'.cache) := by
  match c with
  | ask (.bind key value) =>
    refine Act.meets_bind ((Session.rebound_bind ip g s key value hw).mono ?_ fun _ _ h => h)
    rintro s' w' ⟨_, _, h⟩
    exact Act.meets_pure h.truthful
  | ask (.compile text) =>
    refine Act.meets_bind ((Session.judged_compile ip g s text hw).mono ?_ fun _ _ h => h.1)
    exact fun _ _ h => Act.meets_pure h.1
  | ask (.evaluate text) => exact Session.truthful_evaluate ip g s text hw
  | ask (.program text) => exact Session.truthful_evaluateProgram ip g s text hw
  | read (.ok text) => exact Session.truthful_evaluate ip g s text hw
  | read (.error text) => exact Act.meets_throw hw

namespace Service

open Interpreter

variable {ip : Interpreter} {g : Nat → Generator} {v : Service}

theorem truthful_after (hv : Truthful v.world.cache) (x : Visit) :
    Truthful (v.after ip g x).world.cache :=
  (Call.truthful_act ip (g x.session) (v.sessions x.session) x.call
    (w := { v.world with context := x.context }) hv).world

theorem truthful_play (ip : Interpreter) (g : Nat → Generator) (xs : List Visit) :
    ∀ {v : Service}, Truthful v.world.cache → Truthful (v.play ip g xs).world.cache := by
  induction xs with
  | nil => exact fun hv => hv
  | cons x xs ih => exact fun hv => ih (truthful_after hv x)

theorem truthful_start (g : Nat → Generator) (capacity : Option Int) :
    Truthful (start g capacity).world.cache := by
  cases capacity <;> exact truthful_empty rfl

end Service

end LazySession

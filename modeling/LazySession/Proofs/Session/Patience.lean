import LazySession.Proofs.Eval.Patience
import LazySession.Proofs.Session.Requests

/-!
# Sessions that are not called off

What a session does takes nothing from endless patience, whether it succeeds or fails:
`Session.patient_evaluate` and `Session.patient_bind`. So work that nobody calls off before is not
called off later.
-/

namespace LazySession

/-- Patience that was endless has stayed so. -/
def World.Patient (w w' : World) : Prop :=
  w.context.patience = .endless → w'.context.patience = .endless

namespace World.Patient

variable {w w' w'' : World}

theorem refl (w : World) : Patient w w := fun h => h

theorem trans (h : Patient w w') (h' : Patient w' w'') : Patient w w'' := fun hw => h' (h hw)

theorem of_context (h : w'.context = w.context) : Patient w w' := fun hw => by rwa [h]

end World.Patient

open World (Patient)
open Loader (Holding Kept)

theorem Loader.kept_patient (set : Setting) : Kept set Patient where
  refl := .refl
  trans := .trans
  inquire _ _ hp := hp
  scope _ := .of_context rfl
  imports _ _ _ _ _ := .of_context rfl
  define _ _ _ := .of_context rfl
  force w steps v := fun hw => EvalState.endless_force set (s := Act.start steps w) hw v
  link _ _ _ := .of_context rfl

theorem Instance.patient_write (i : Instance) (field : String) (v : HostValue) :
    Holding Patient (i.write field v) := by
  intro w
  unfold write
  split
  · exact Act.meets_throw (.refl w)
  · refine Act.meets_get_bind ?_
    split
    · exact Act.meets_set (.of_context rfl)
    · exact Act.meets_throw (.refl w)

theorem Loader.context_extend (l : Loader) (mods : List ModuleCode) (w : World) :
    (l.extend mods w).2.context = w.context := by
  have hfold : ∀ (cs : List ModuleCode) (lw : Loader × World),
      (cs.foldl refresh lw).2.context = lw.2.context := by
    intro cs
    induction cs with
    | nil => exact fun _ => rfl
    | cons c cs ih => exact fun lw => ih (refresh lw c)
  unfold extend
  split
  · rfl
  · exact (hfold _ _).trans (hfold _ _)

theorem Act.patient_inquire : Holding Patient Act.inquire :=
  fun _ => Act.meets_inquired fun _ hp => ⟨hp, hp⟩

/-! ## Runs -/

namespace Interpreter

theorem patient_interpret (text : String) : Holding Patient (interpret text) :=
  fun _ => Act.meets_get_bind (Act.meets_set_bind (Act.meets_pure (.of_context rfl)))

theorem patient_definitionPieces (history : History) :
    Holding Patient (definitionPieces history) :=
  fun _ => Act.meets_get_bind (Act.meets_set_bind (Act.meets_pure (.of_context rfl)))

theorem patient_extendLoader (l : Loader) (mods : List ModuleCode) :
    Holding Patient (extendLoader l mods) :=
  fun w => Act.meets_get_bind (Act.meets_set_bind (Act.meets_pure
    (.of_context (l.context_extend mods w))))

variable (ip : Interpreter)

theorem patient_compileAgainst (l : Loader) (name : String) (ps : List Piece) :
    Holding Patient (ip.compileAgainst l name ps) :=
  fun _ => Act.meets_get_bind (Act.meets_set_bind (Act.meets_pure (.of_context rfl)))

theorem patient_compileBehind (history : History) (l : Loader) (name : String)
    (decls : List Decl) : Holding Patient (ip.compileBehind history l name decls) := by
  unfold compileBehind
  refine (patient_definitionPieces history).bind .trans fun p => ?_
  simp only
  split
  · exact ip.patient_compileAgainst _ _ _
  · exact fun w => Act.meets_pure (.refl w)

theorem patient_runFragment (text : String) (f : Fragment) (history : History) (l : Loader) :
    Holding Patient (ip.runFragment text f history l) := by
  cases f with
  | module m =>
    refine (ip.patient_compileAgainst l _ _).bind .trans fun r => ?_
    cases r with
    | error ds => exact fun w => Act.meets_pure (.refl w)
    | ok p => exact (patient_extendLoader l _).bind .trans fun _ w => Act.meets_pure (.refl w)
  | definitions decls =>
    refine (ip.patient_compileBehind history l _ _).bind .trans fun r => ?_
    cases r with
    | error ds => exact fun w => Act.meets_pure (.refl w)
    | ok p => exact (patient_extendLoader l _).bind .trans fun _ w => Act.meets_pure (.refl w)
  | expression e =>
    refine (ip.patient_compileBehind history l _ _).bind .trans fun r => ?_
    cases r with
    | error ds => exact fun w => Act.meets_pure (.refl w)
    | ok p => exact (patient_extendLoader l _).bind .trans fun _ w => Act.meets_pure (.refl w)

theorem patient_run (p : Program) (history : History) (l : Loader) :
    Holding Patient (ip.engine.run p history l) := by
  refine Act.patient_inquire.bind .trans fun _ => ?_
  simp only
  split
  · exact fun w => Act.meets_pure (.refl w)
  · exact ip.patient_runFragment _ _ _ _

end Interpreter

/-! ## Operations -/

namespace Session

variable (ip : Interpreter) (g : Generator) (s : Session)

theorem serves_patient (ws : Workshop) (l : Loader) : Serves ws l Patient where
  refl := .refl
  trans := .trans
  load := (Loader.kept_patient _).load l
  read := (Loader.kept_patient _).read
  write := Instance.patient_write

theorem patient_lock : Holding Patient lock := by
  intro w
  refine Act.meets_get_bind ?_
  split
  · exact Act.meets_throw (.refl w)
  · exact Act.meets_pure (.refl w)

theorem patient_evaluate (text : String) :
    Holding Patient (s.evaluate ⟨ip.engine, g⟩ text) := by
  refine (Interpreter.patient_interpret text).bind .trans fun p => ?_
  refine patient_lock.bind .trans fun _ => ?_
  refine ((ip.patient_run p _ _).during _).bind .trans fun r => ?_
  cases r with
  | rejected ds => exact fun w => Act.meets_throw (.refl w)
  | accepted kind l =>
    cases kind with
    | module name => exact fun w => Act.meets_pure (.refl w)
    | definitions => exact fun w => Act.meets_pure (.refl w)
    | expression sym =>
      exact ((serves_patient _ l).readSymbol s sym).bind .trans fun _ w => Act.meets_pure (.refl w)

theorem patient_reload : Holding Patient (s.reload ⟨ip.engine, g⟩) := by
  refine (Interpreter.patient_interpret _).bind .trans fun p => ?_
  refine ((ip.patient_run p _ _).during _).bind .trans fun r => ?_
  cases r with
  | rejected ds => exact fun w => Act.meets_throw (.refl w)
  | accepted kind l =>
    cases kind with
    | module name => exact fun w => Act.meets_pure (.refl w)
    | definitions | expression sym => exact fun w => Act.meets_throw (.refl w)

theorem patient_bind (key : String) (value : HostValue) :
    Holding Patient (s.bind ⟨ip.engine, g⟩ key value) := by
  refine patient_lock.bind .trans fun _ => ?_
  split
  · exact fun w => Act.meets_throw (.refl w)
  · split
    · exact fun w => Act.meets_throw (.refl w)
    · exact (patient_reload ip g _).rethrow _

end Session

end LazySession

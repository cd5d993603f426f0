import LazySession.Proofs.Lang.Reader

/-!
# More fuel changes no success

`Grammar.within_operation`: an expression that is read with some fuel is read in the same way with
more. So what a reader gives does not depend on how much fuel the tokens behind it would take.
-/

namespace LazySession

namespace Reader

variable {α β : Type}

/-- Wherever the one reader has success, the other does the same. -/
def Within (r r' : Reader α) : Prop :=
  ∀ c a c', r.run c = .ok (a, c') → r'.run c = .ok (a, c')

theorem Within.refl (r : Reader α) : r.Within r := fun _ _ _ h => h

theorem Within.trans {r₁ r₂ r₃ : Reader α} (h : r₁.Within r₂) (h' : r₂.Within r₃) :
    r₁.Within r₃ :=
  fun c a c' hr => h' c a c' (h c a c' hr)

theorem Within.bind {r r' : Reader α} {f f' : α → Reader β} (h : r.Within r')
    (hf : ∀ a, (f a).Within (f' a)) : (r >>= f).Within (r' >>= f') := by
  intro c b c'' hb
  obtain ⟨a, c', ha, hb⟩ := bind_ok hb
  rw [run_bind, h c a c' ha]
  exact hf a c' b c'' hb

theorem Within.next (r : Reader α) {f f' : α → Reader β} (hf : ∀ a, (f a).Within (f' a)) :
    (r >>= f).Within (r >>= f') :=
  .bind (.refl r) hf

theorem Within.withColumn {r r' : Reader α} (h : r.Within r') (col : Int) :
    (withColumn col r).Within (withColumn col r') :=
  .next _ fun _ => .bind h fun _ => .refl _

end Reader

namespace Grammar

open Reader

theorem within_exhausted {α : Type} (r : Reader α) : (exhausted : Reader α).Within r := by
  intro c a c' h
  cases h

/-- One more unit of fuel changes no success. -/
structure Fueled (n : Nat) : Prop where
  operation : ∀ level, (operation n level).Within (operation (n + 1) level)
  operationFrom : ∀ level left,
    (operationFrom n level left).Within (operationFrom (n + 1) level left)
  operand : (operand n).Within (operand (n + 1))
  application : (application n).Within (application (n + 1))
  arguments : ∀ done, (arguments n done).Within (arguments (n + 1) done)
  atom : (atom n).Within (atom (n + 1))
  parenthesized : ∀ t, (parenthesized n t).Within (parenthesized (n + 1) t)
  lambda : (lambda n).Within (lambda (n + 1))
  cond : (cond n).Within (cond (n + 1))
  letIn : (letIn n).Within (letIn (n + 1))
  bindings : ∀ col done, (bindings n col done).Within (bindings (n + 1) col done)
  binding : ∀ strict, (binding n strict).Within (binding (n + 1) strict)

theorem fueled_zero : Fueled 0 := by
  constructor <;> intros <;> exact within_exhausted _

section
variable {n : Nat} (h : Fueled n)
include h

theorem Fueled.succ_operationFrom (level : Nat) (left : Expr) :
    (Grammar.operationFrom (n + 1) level left).Within
      (Grammar.operationFrom (n + 2) level left) := by
  rw [Grammar.operationFrom, Grammar.operationFrom]
  refine .next _ fun c => ?_
  simp only
  split
  · exact .refl _
  · cases Operator.ofText? c.peek.text with
    | none => exact .refl _
    | some op =>
      simp only
      split
      · exact .refl _
      · refine .next _ fun _ => .bind (h.operation _) fun right => .next _ fun _ => ?_
        exact h.operationFrom _ _

theorem Fueled.succ_operand : (Grammar.operand (n + 1)).Within (Grammar.operand (n + 2)) := by
  rw [Grammar.operand, Grammar.operand]
  refine .next _ fun t => ?_
  cases t.kind with
  | backslash => exact h.lambda
  | kwLet => exact h.letIn
  | kwIf => exact h.cond
  | op =>
    simp only
    split
    · exact .next _ fun _ => .bind (h.operation _) fun _ => .refl _
    · exact h.application
  | _ => exact h.application

theorem Fueled.succ_arguments (done : List Expr) :
    (Grammar.arguments (n + 1) done).Within (Grammar.arguments (n + 2) done) := by
  rw [Grammar.arguments, Grammar.arguments]
  refine .next _ fun c => ?_
  split
  · exact .bind h.atom fun a => h.arguments _
  · exact .refl _

theorem Fueled.succ_atom : (Grammar.atom (n + 1)).Within (Grammar.atom (n + 2)) := by
  rw [Grammar.atom, Grammar.atom]
  refine .next _ fun t => ?_
  cases t.kind with
  | lparen => exact .next _ fun _ => h.parenthesized t
  | _ => exact .refl _

theorem Fueled.succ_parenthesized (t : Token) :
    (Grammar.parenthesized (n + 1) t).Within (Grammar.parenthesized (n + 2) t) := by
  rw [Grammar.parenthesized, Grammar.parenthesized]
  refine .next _ fun c => ?_
  simp only
  split
  · exact .refl _
  · split
    · exact .refl _
    · exact .bind ((h.operation 0).withColumn 0) fun _ => .refl _

theorem Fueled.succ_bindings (col : Int) (done : List Binding) :
    (Grammar.bindings (n + 1) col done).Within (Grammar.bindings (n + 2) col done) := by
  rw [Grammar.bindings, Grammar.bindings]
  refine .bind (h.binding false) fun b => .next _ fun t => ?_
  split
  · exact .next _ fun _ => h.bindings _ _
  · split
    · exact .refl _
    · split
      · exact h.bindings _ _
      · exact .refl _

theorem Fueled.succ_binding (strict : Bool) :
    (Grammar.binding (n + 1) strict).Within (Grammar.binding (n + 2) strict) := by
  rw [Grammar.binding, Grammar.binding]
  refine .next _ fun t => .next _ fun ps => .next _ fun eq => ?_
  split
  · exact .refl _
  · exact .bind (h.operation 0) fun _ => .refl _

theorem Fueled.succ_lambda : (Grammar.lambda (n + 1)).Within (Grammar.lambda (n + 2)) := by
  rw [Grammar.lambda, Grammar.lambda]
  refine .next _ fun t => .next _ fun ps => ?_
  cases ps with
  | nil => exact .refl _
  | cons p ps => exact .next _ fun _ => .bind (h.operation 0) fun _ => .refl _

theorem Fueled.succ_letIn : (Grammar.letIn (n + 1)).Within (Grammar.letIn (n + 2)) := by
  rw [Grammar.letIn, Grammar.letIn]
  refine .next _ fun t => .next _ fun first => ?_
  split
  · exact .refl _
  · refine .bind ((h.bindings _ _).withColumn _) fun _ => .next _ fun _ => ?_
    exact .bind (h.operation 0) fun _ => .refl _

theorem Fueled.succ : Fueled (n + 1) where
  operation _ := .bind h.operand fun _ => h.operationFrom _ _
  operationFrom := h.succ_operationFrom
  operand := h.succ_operand
  application := .bind h.atom fun _ => .bind (h.arguments _) fun _ => .refl _
  arguments := h.succ_arguments
  atom := h.succ_atom
  parenthesized := h.succ_parenthesized
  lambda := h.succ_lambda
  cond := .next _ fun _ => .bind (h.operation 0) fun _ => .next _ fun _ =>
    .bind (h.operation 0) fun _ => .next _ fun _ => .bind (h.operation 0) fun _ => .refl _
  letIn := h.succ_letIn
  bindings := h.succ_bindings
  binding := h.succ_binding

end

theorem fueled (n : Nat) : Fueled n := by
  induction n with
  | zero => exact fueled_zero
  | succ n ih => exact ih.succ

theorem within_of_le {α : Type} {r : Nat → Reader α} (h : ∀ n, (r n).Within (r (n + 1))) {n m : Nat}
    (hle : n ≤ m) : (r n).Within (r m) := by
  induction hle with
  | refl => exact .refl _
  | step _ ih => exact ih.trans (h _)

theorem within_operation {n m : Nat} (h : n ≤ m) (level : Nat) :
    (operation n level).Within (operation m level) :=
  within_of_le (fun n => (fueled n).operation level) h

theorem within_atom {n m : Nat} (h : n ≤ m) : (atom n).Within (atom m) :=
  within_of_le (fun n => (fueled n).atom) h

theorem within_letIn {n m : Nat} (h : n ≤ m) : (letIn n).Within (letIn m) :=
  within_of_le (fun n => (fueled n).letIn) h

end Grammar

end LazySession

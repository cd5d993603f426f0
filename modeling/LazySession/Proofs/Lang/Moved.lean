import LazySession.Proofs.Lang.Printing

/-!
# Trees with other places

`Expr.move f` is an expression with every place in it moved by `f`. The trees without their places
are those moved to one place: `Expr.move_start`.
-/

namespace LazySession

/-- The place `n` lines further down. -/
def Pos.down (n : Nat) (p : Pos) : Pos := ⟨p.line + n, p.col⟩

def Token.move (f : Pos → Pos) (t : Token) : Token := { t with pos := f t.pos }

variable (f : Pos → Pos)

namespace TypeExpr

mutual

def move : TypeExpr → TypeExpr
  | con p name => .con (f p) name
  | var p name => .var (f p) name
  | unit p => .unit (f p)
  | app head args => .app head.move (moveAll args)
  | arrow dom cod => .arrow dom.move cod.move

def moveAll : List TypeExpr → List TypeExpr
  | [] => []
  | t :: ts => t.move :: moveAll ts

end

theorem moveAll_eq (ts : List TypeExpr) : moveAll f ts = ts.map (move f) := by
  induction ts with
  | nil => rfl
  | cons t ts ih => rw [moveAll, ih, List.map_cons]

mutual

theorem move_id : ∀ t : TypeExpr, t.move id = t
  | con _ _ | var _ _ | unit _ => rfl
  | app head args => by rw [move, move_id head, moveAll_id args]
  | arrow dom cod => by rw [move, move_id dom, move_id cod]

theorem moveAll_id : ∀ ts : List TypeExpr, moveAll id ts = ts
  | [] => rfl
  | t :: ts => by rw [moveAll, move_id t, moveAll_id ts]

end

end TypeExpr

namespace Expr

mutual

def move : Expr → Expr
  | var p name => .var (f p) name
  | qualified p mod name => .qualified (f p) mod name
  | int p value => .int (f p) value
  | str p value => .str (f p) value
  | bool p value => .bool (f p) value
  | unit p => .unit (f p)
  | app fn args => .app fn.move (moveAll args)
  | binary p op l r => .binary (f p) op l.move r.move
  | negate p e => .negate (f p) e.move
  | operator p op => .operator (f p) op
  | lambda p q qs body => .lambda (f p) q qs body.move
  | letIn p binds body => .letIn (f p) (moveBinds binds) body.move
  | cond p test yes no => .cond (f p) test.move yes.move no.move

def moveAll : List Expr → List Expr
  | [] => []
  | e :: es => e.move :: moveAll es

def moveBinds : List (BindingOf Expr) → List (BindingOf Expr)
  | [] => []
  | ⟨p, name, params, strict, body⟩ :: bs =>
    ⟨f p, name, params, strict, body.move⟩ :: moveBinds bs

end

mutual

theorem move_id : ∀ e : Expr, e.move id = e
  | var _ _ | qualified _ _ _ | int _ _ | str _ _ | bool _ _ | unit _ | operator _ _ => rfl
  | app fn args => by rw [move, move_id fn, moveAll_id args]
  | binary _ _ l r => by rw [move, move_id l, move_id r]; rfl
  | negate _ e => by rw [move, move_id e]; rfl
  | lambda _ _ _ body => by rw [move, move_id body]; rfl
  | letIn _ binds body => by rw [move, moveBinds_id binds, move_id body]; rfl
  | cond _ test yes no => by rw [move, move_id test, move_id yes, move_id no]; rfl

theorem moveAll_id : ∀ es : List Expr, moveAll id es = es
  | [] => rfl
  | e :: es => by rw [moveAll, move_id e, moveAll_id es]

theorem moveBinds_id : ∀ bs : List (BindingOf Expr), moveBinds id bs = bs
  | [] => rfl
  | ⟨_, _, _, _, body⟩ :: bs => by rw [moveBinds, move_id body, moveBinds_id bs]; rfl

end

mutual

theorem move_start : ∀ e : Expr, e.move (fun _ => .start) = e.erase
  | var _ _ | qualified _ _ _ | int _ _ | str _ _ | bool _ _ | unit _ | operator _ _ => rfl
  | app fn args => by rw [move, erase, move_start fn, moveAll_start args]
  | binary _ _ l r => by rw [move, erase, move_start l, move_start r]
  | negate _ e => by rw [move, erase, move_start e]
  | lambda _ _ _ body => by rw [move, erase, move_start body]
  | letIn _ binds body => by rw [move, erase, moveBinds_start binds, move_start body]
  | cond _ test yes no => by rw [move, erase, move_start test, move_start yes, move_start no]

theorem moveAll_start : ∀ es : List Expr, moveAll (fun _ => .start) es = eraseAll es
  | [] => rfl
  | e :: es => by rw [moveAll, eraseAll, move_start e, moveAll_start es]

theorem moveBinds_start : ∀ bs : List (BindingOf Expr),
    moveBinds (fun _ => .start) bs = eraseBinds bs
  | [] => rfl
  | ⟨_, _, _, _, body⟩ :: bs => by rw [moveBinds, eraseBinds, move_start body, moveBinds_start bs]

end

end Expr

def BindingOf.move (b : Binding) : Binding :=
  ⟨f b.pos, b.name, b.params, b.strict, b.body.move f⟩

theorem Expr.moveAll_eq (es : List Expr) : moveAll f es = es.map (move f) := by
  induction es with
  | nil => rfl
  | cons e es ih => rw [moveAll, ih, List.map_cons]

theorem Expr.moveBinds_eq (bs : List Binding) : moveBinds f bs = bs.map (BindingOf.move f) := by
  induction bs with
  | nil => rfl
  | cons b bs ih =>
    rw [moveBinds, ih, List.map_cons]
    rfl

def Decl.move : Decl → Decl
  | .importing p mod => .importing (f p) mod
  | .signature p names type => .signature (f p) names (type.move f)
  | .binding b => .binding (b.move f)

theorem Decl.move_id (d : Decl) : d.move id = d := by
  cases d with
  | importing p mod => rfl
  | signature p names type => rw [move, TypeExpr.move_id]; rfl
  | binding b => rw [move, BindingOf.move, Expr.move_id]; rfl

end LazySession

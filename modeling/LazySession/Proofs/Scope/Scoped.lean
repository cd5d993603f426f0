import LazySession.Check.Scopes

/-!
# Expressions whose variables are known

`Expr.Scoped known e`: every variable of `e` is bound inside of `e` or known outside.
`Expr.scoped_of_check`: an expression that passes the check is scoped, if it has no variable called
`()`, which the check takes for bound where a function has the pattern `()`.
-/

namespace LazySession

/-- The parameters bind the name. The pattern `()` binds none. -/
def Param.Binds (ps : List Param) (x : String) : Prop := .named x ∈ ps

namespace Expr

/-- Every variable is bound by a parameter or a `let` around it, or it is known. -/
inductive Scoped : (known : String → Prop) → Expr → Prop
  | var {known : String → Prop} {p : Pos} {x : String} (h : known x) : Scoped known (.var p x)
  | qualified {known : String → Prop} {p : Pos} {mod x : String} (h : known (mod ++ "." ++ x)) :
    Scoped known (.qualified p mod x)
  | int {known : String → Prop} {p : Pos} {v : Int64} : Scoped known (.int p v)
  | str {known : String → Prop} {p : Pos} {v : String} : Scoped known (.str p v)
  | bool {known : String → Prop} {p : Pos} {v : Bool} : Scoped known (.bool p v)
  | unit {known : String → Prop} {p : Pos} : Scoped known (.unit p)
  | app {known : String → Prop} {fn : Expr} {args : List Expr} (hf : Scoped known fn)
    (ha : ∀ a ∈ args, Scoped known a) : Scoped known (.app fn args)
  | binary {known : String → Prop} {p : Pos} {op : Operator} {l r : Expr} (hl : Scoped known l)
    (hr : Scoped known r) : Scoped known (.binary p op l r)
  | negate {known : String → Prop} {p : Pos} {e : Expr} (he : Scoped known e) :
    Scoped known (.negate p e)
  | operator {known : String → Prop} {p : Pos} {op : Operator} : Scoped known (.operator p op)
  | lambda {known : String → Prop} {p : Pos} {param : Param} {more : List Param} {body : Expr}
    (hb : Scoped (fun x => Param.Binds (param :: more) x ∨ known x) body) :
    Scoped known (.lambda p param more body)
  | letIn {known : String → Prop} {p : Pos} {binds : List Binding} {body : Expr}
    (hbs : ∀ b ∈ binds, Scoped
      (fun x => Param.Binds b.params x ∨ x ∈ binds.map (·.name) ∨ known x) b.body)
    (hb : Scoped (fun x => x ∈ binds.map (·.name) ∨ known x) body) :
    Scoped known (.letIn p binds body)
  | cond {known : String → Prop} {p : Pos} {test yes no : Expr} (ht : Scoped known test)
    (hy : Scoped known yes) (hn : Scoped known no) : Scoped known (.cond p test yes no)

theorem Scoped.mono {known known' : String → Prop} {e : Expr} (h : Scoped known e)
    (hk : ∀ x, known x → known' x) : Scoped known' e := by
  induction h generalizing known' with
  | var h => exact .var (hk _ h)
  | qualified h => exact .qualified (hk _ h)
  | int => exact .int
  | str => exact .str
  | bool => exact .bool
  | unit => exact .unit
  | app _ _ hf ha => exact .app (hf hk) fun a hm => ha a hm hk
  | binary _ _ hl hr => exact .binary (hl hk) (hr hk)
  | negate _ he => exact .negate (he hk)
  | operator => exact .operator
  | lambda _ hb => exact .lambda (hb fun x => Or.imp_right (hk x))
  | letIn _ _ hbs hb =>
    refine .letIn (fun b hm => hbs b hm fun x => ?_) (hb fun x => Or.imp_right (hk x))
    exact Or.imp_right (Or.imp_right (hk x))
  | cond _ _ _ ht hy hn => exact .cond (ht hk) (hy hk) (hn hk)

end Expr

/-! ## The check -/

namespace Visible

/-- The names that a program sees, with the name of their module where they are imported. -/
def Knows (vis : Visible) (x : String) : Prop :=
  x ∈ vis.plain ∨ ∃ mod names name, vis.exports.get? mod = some (some names) ∧ name ∈ names ∧
    x = mod ++ "." ++ name

/-- The exports of all imports are known. -/
def Complete (vis : Visible) : Prop :=
  ∀ mod, vis.exports.get? mod ≠ some none

end Visible

namespace Expr

variable {vis : Visible} {locals : List String}

theorem mem_paramNames {ps : List Param} {x : String} (h : x ∈ paramNames ps) :
    Param.Binds ps x ∨ x = "()" := by
  obtain ⟨p, hp, rfl⟩ := List.mem_map.mp h
  cases p with
  | unit => exact .inr rfl
  | named y => exact .inl hp

theorem checkAll_eq_nil {es : List Expr} :
    checkAll vis locals es = [] ↔ ∀ e ∈ es, e.check vis locals = [] := by
  induction es with
  | nil => simp [checkAll]
  | cons e es ih => simp [checkAll, ih]

theorem checkBinds_eq_nil {bs : List Binding} :
    checkBinds vis locals bs = [] ↔
      ∀ b ∈ bs, b.body.check vis (paramNames b.params ++ locals) = [] := by
  induction bs with
  | nil => simp [checkBinds]
  | cons b bs ih => simp [checkBinds, ih]

/-- An expression that passes the check has only variables that are known. -/
theorem scoped_of_check (hc : vis.Complete) {named : String → Prop} {e : Expr}
    (hs : e.Scoped named) : ∀ {locals : List String} {known : String → Prop},
    e.check vis locals = [] → (∀ x, named x → x = "()" → known x) →
    (∀ x, x ∈ locals ∨ vis.Knows x → known x ∨ x = "()") → e.Scoped known := by
  induction hs with
  | @var named p x hx =>
    intro locals known h hn hk
    simp only [check, Visible.checkVar] at h
    split at h
    · rename_i hm
      simp only [Bool.or_eq_true, List.contains_eq_mem, decide_eq_true_eq] at hm
      exact .var ((hk x (hm.imp_right .inl)).elim id (hn x hx))
    · cases h
  | @qualified named p mod x hx =>
    intro locals known h hn hk
    simp only [check, Visible.checkQualified] at h
    split at h
    · cases h
    · rename_i hnone
      exact absurd hnone (hc mod)
    · rename_i names hnames
      split at h
      · rename_i hm
        have hv : vis.Knows (mod ++ "." ++ x) :=
          .inr ⟨mod, names, x, hnames, by simpa using hm, rfl⟩
        exact .qualified ((hk _ (.inr hv)).elim id (hn _ hx))
      · cases h
  | int => intros; exact .int
  | str => intros; exact .str
  | bool => intros; exact .bool
  | unit => intros; exact .unit
  | operator => intros; exact .operator
  | app _ _ hf ha =>
    intro locals known h hn hk
    simp only [check, List.append_eq_nil_iff] at h
    exact .app (hf h.1 hn hk) fun a hm => ha a hm (checkAll_eq_nil.mp h.2 a hm) hn hk
  | binary _ _ hl hr =>
    intro locals known h hn hk
    simp only [check, List.append_eq_nil_iff] at h
    exact .binary (hl h.1 hn hk) (hr h.2 hn hk)
  | negate _ he =>
    intro locals known h hn hk
    simp only [check] at h
    exact .negate (he h hn hk)
  | lambda _ hb =>
    intro locals known h hn hk
    simp only [check] at h
    refine .lambda (hb h (fun x hx he => hx.imp_right (hn x · he)) fun x hx => ?_)
    rw [List.mem_append, or_assoc] at hx
    rcases hx with hx | hx
    · exact (mem_paramNames hx).imp_left .inl
    · exact (hk x hx).imp_left .inr
  | @letIn named p binds body _ _ hbs hb =>
    intro locals known h hn hk
    simp only [check, List.append_eq_nil_iff] at h
    -- all bindings of a block see each other
    have hk' : ∀ x, x ∈ binds.map (·.name) ++ locals ∨ vis.Knows x →
        (x ∈ binds.map (·.name) ∨ known x) ∨ x = "()" := by
      intro x hx
      rw [List.mem_append, or_assoc] at hx
      rcases hx with hx | hx
      · exact .inl (.inl hx)
      · exact (hk x hx).imp_left .inr
    refine .letIn (fun b hm => hbs b hm (checkBinds_eq_nil.mp h.1 b hm) ?_ fun x hx => ?_)
      (hb h.2 (fun x hx he => hx.imp_right (hn x · he)) hk')
    · exact fun x hx he => hx.imp_right (Or.imp_right (hn x · he))
    · rw [List.mem_append, or_assoc] at hx
      rcases hx with hx | hx
      · exact (mem_paramNames hx).imp_left .inl
      · exact (hk' x hx).imp_left .inr
  | cond _ _ _ ht hy hno =>
    intro locals known h hn hk
    simp only [check, List.append_eq_nil_iff] at h
    exact .cond (ht h.1.1 hn hk) (hy h.1.2 hn hk) (hno h.2 hn hk)

end Expr

end LazySession

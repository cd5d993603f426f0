import LazySession.Proofs.Lang.Appending
import LazySession.Proofs.Lang.Places
import LazySession.Proofs.Origin.Marks

/-!
# Where faults are

A reader finds fault with one of the tokens that it is given, or with the one for their end: the fault is
where that token is, and if it names a token that was found, it is that one. The trees that it makes stand
where the tokens are, too: `Grammar.blames_decl`, `Grammar.blames_expr`. A fault with the end is told at
the end (`Reader.at_end`). Each item starts a line, so the faults in the items of a text come line after
line: `Fragment.listed_ofText`.
-/

namespace LazySession

/-! ## Trees -/

namespace TypeExpr

/-- The type and its parts stand in `S`. -/
inductive Within (S : Set Pos) : TypeExpr → Prop
  | con {p : Pos} {name : String} (h : p ∈ S) : Within S (.con p name)
  | var {p : Pos} {name : String} (h : p ∈ S) : Within S (.var p name)
  | unit {p : Pos} (h : p ∈ S) : Within S (.unit p)
  | app {head : TypeExpr} {args : List TypeExpr} (hhead : Within S head)
      (hargs : ∀ t ∈ args, Within S t) : Within S (.app head args)
  | arrow {dom cod : TypeExpr} (hdom : Within S dom) (hcod : Within S cod) :
      Within S (.arrow dom cod)

variable {S : Set Pos}

theorem Within.pos {t : TypeExpr} (h : t.Within S) : t.pos ∈ S := by
  induction h with
  | con h | var h | unit h => exact h
  | app _ _ ih _ => exact ih
  | arrow _ _ ih _ => exact ih

theorem checkCon_within {p : Pos} (h : p ∈ S) (name : String) (args : Nat) :
    ∀ r ∈ checkCon p name args, r.1 ∈ S := by
  unfold checkCon
  split
  · simpa using h
  · split
    · simp
    · simpa using h

mutual

theorem check_within : ∀ {t : TypeExpr}, t.Within S → ∀ r ∈ t.check, r.1 ∈ S
  | .con p name, .con h => by
    unfold check
    exact checkCon_within h name 0
  | .var _ _, _ | .unit _, _ => by
    unfold check
    exact List.forall_mem_nil _
  | .app head args, .app hhead hargs => by
    unfold check
    refine List.forall_mem_append.mpr ⟨?_, checkAll_within hargs⟩
    cases head with
    | con p name => exact checkCon_within hhead.pos name _
    | _ => simpa using hhead.pos
  | .arrow dom cod, .arrow hdom hcod => by
    unfold check
    exact List.forall_mem_append.mpr ⟨check_within hdom, check_within hcod⟩

theorem checkAll_within : ∀ {ts : List TypeExpr}, (∀ t ∈ ts, t.Within S) →
    ∀ r ∈ checkAll ts, r.1 ∈ S
  | [], _ => by
    unfold checkAll
    exact List.forall_mem_nil _
  | t :: ts, h => by
    unfold checkAll
    obtain ⟨ht, hts⟩ := List.forall_mem_cons.mp h
    exact List.forall_mem_append.mpr ⟨check_within ht, checkAll_within hts⟩

end

end TypeExpr

namespace Expr

theorem places_subset {S : Set Pos} {e : Expr} (hpos : e.pos ∈ S)
    (hparts : ∀ x, Part x e → x.places ⊆ S) : e.places ⊆ S := by
  rintro p ⟨x, hx, rfl⟩
  rcases hx.cases_tail with rfl | ⟨y, hxy, hy⟩
  · exact hpos
  · exact hparts y hy ⟨x, hxy, rfl⟩

mutual

theorem check_places (vis : Visible) : ∀ (locals : List String) (e : Expr),
    ∀ r ∈ e.check vis locals, r.1 ∈ e.places
  | locals, .var p name => by
    unfold check Visible.checkVar
    have hp : p ∈ (Expr.var p name).places := pos_mem_places _
    split
    · exact List.forall_mem_nil _
    · simpa using hp
  | locals, .qualified p mod name => by
    unfold check Visible.checkQualified
    have hp : p ∈ (Expr.qualified p mod name).places := pos_mem_places _
    split
    · simpa using hp
    · exact List.forall_mem_nil _
    · split
      · simp
      · simpa using hp
  | _, .int .. | _, .str .. | _, .bool .. | _, .unit .. | _, .operator .. => by
    unfold check
    exact List.forall_mem_nil _
  | locals, .app fn args => by
    unfold check
    refine List.forall_mem_append.mpr ⟨fun r hr => ?_, fun r hr => ?_⟩
    · exact Part.function.places_subset (check_places vis locals fn r hr)
    · obtain ⟨a, ha, hp⟩ := checkAll_places vis locals args r hr
      exact (Part.argument ha).places_subset hp
  | locals, .binary p op l r => by
    unfold check
    refine List.forall_mem_append.mpr ⟨fun q hq => ?_, fun q hq => ?_⟩
    · exact Part.left.places_subset (check_places vis locals l q hq)
    · exact Part.right.places_subset (check_places vis locals r q hq)
  | locals, .negate p e => by
    unfold check
    exact fun r hr => Part.negated.places_subset (check_places vis locals e r hr)
  | locals, .lambda p q qs body => by
    unfold check
    exact fun r hr => Part.lambdaBody.places_subset (check_places vis _ body r hr)
  | locals, .letIn p binds body => by
    unfold check
    refine List.forall_mem_append.mpr ⟨fun r hr => ?_, fun r hr => ?_⟩
    · obtain ⟨b, hb, hp⟩ := checkBinds_places vis _ binds r hr
      exact (Part.bound hb).places_subset hp
    · exact Part.letBody.places_subset (check_places vis _ body r hr)
  | locals, .cond p test yes no => by
    unfold check
    refine List.forall_mem_append.mpr ⟨List.forall_mem_append.mpr ⟨fun r hr => ?_, fun r hr => ?_⟩,
      fun r hr => ?_⟩
    · exact Part.test.places_subset (check_places vis locals test r hr)
    · exact Part.yes.places_subset (check_places vis locals yes r hr)
    · exact Part.no.places_subset (check_places vis locals no r hr)

theorem checkAll_places (vis : Visible) : ∀ (locals : List String) (es : List Expr),
    ∀ r ∈ checkAll vis locals es, ∃ e ∈ es, r.1 ∈ e.places
  | _, [] => by
    unfold checkAll
    exact List.forall_mem_nil _
  | locals, e :: es => by
    unfold checkAll
    refine List.forall_mem_append.mpr ⟨fun r hr => ?_, fun r hr => ?_⟩
    · exact ⟨e, List.mem_cons_self, check_places vis locals e r hr⟩
    · obtain ⟨x, hx, hp⟩ := checkAll_places vis locals es r hr
      exact ⟨x, List.mem_cons_of_mem _ hx, hp⟩

theorem checkBinds_places (vis : Visible) : ∀ (locals : List String) (bs : List (BindingOf Expr)),
    ∀ r ∈ checkBinds vis locals bs, ∃ b ∈ bs, r.1 ∈ b.body.places
  | _, [] => by
    unfold checkBinds
    exact List.forall_mem_nil _
  | locals, ⟨p, name, params, strict, body⟩ :: bs => by
    unfold checkBinds
    refine List.forall_mem_append.mpr ⟨fun r hr => ?_, fun r hr => ?_⟩
    · exact ⟨_, List.mem_cons_self, check_places vis _ body r hr⟩
    · obtain ⟨b, hb, hp⟩ := checkBinds_places vis locals bs r hr
      exact ⟨b, List.mem_cons_of_mem _ hb, hp⟩

end

end Expr

/-- The declaration and its parts stand in `S`. -/
def Decl.Within (S : Set Pos) : Decl → Prop
  | .importing p _ => p ∈ S
  | .signature p _ type => p ∈ S ∧ type.Within S
  | .binding b => b.pos ∈ S ∧ b.body.places ⊆ S

/-! ## Readers -/

namespace SyntaxFault

/-- The token that was found in place of another one. -/
def found? : SyntaxFault → Option Token
  | .expected _ found | .unexpected found => some found
  | _ => none

/-- Whether the input came to its end too early. -/
def AtEnd (f : SyntaxFault) : Prop := ∃ t ∈ f.found?, t.kind = .eof

end SyntaxFault

/-- The fault is at a token that has `T`, the one that was found if it names one. -/
def Issue.At (T : Token → Prop) (i : Issue) : Prop :=
  ∃ t, T t ∧ i.pos = t.pos ∧ ∀ u ∈ i.fault.found?, u = t

theorem Issue.At.pos_mem {S : Set Pos} {i : Issue} (h : i.At (·.pos ∈ S)) : i.pos ∈ S := by
  obtain ⟨t, ht, hpos, -⟩ := h
  rw [hpos]
  exact ht

/-- The tokens that are left and that of the end have `T`. -/
def Cursor.Has (T : Token → Prop) (c : Cursor) : Prop := T (.eof c.stop) ∧ ∀ t ∈ c.toks, T t

namespace Cursor

variable {T : Token → Prop} {c : Cursor}

theorem has_of_pos {S : Set Pos} {toks : List Token} {stop : Pos} (hstop : stop ∈ S)
    (htoks : ∀ t ∈ toks, t.pos ∈ S) : Has (·.pos ∈ S) ⟨toks, stop, []⟩ := ⟨hstop, htoks⟩

theorem Has.peek (h : c.Has T) : T c.peek := by
  unfold Cursor.peek
  cases htoks : c.toks with
  | nil => exact h.1
  | cons t ts => exact h.2 t (by simp [htoks])

theorem Has.advance (h : c.Has T) : c.advance.Has T :=
  ⟨h.1, fun t ht => h.2 t (List.mem_of_mem_tail ht)⟩

end Cursor

namespace Reader

variable {α β : Type} {T : Token → Prop} {Q : α → Prop} {R : β → Prop}

/-- From a cursor that has `T`, the reader gives what has `Q` and leaves a cursor that has `T`, or finds
fault with a token that has `T`. -/
def Blames (T : Token → Prop) (Q : α → Prop) (r : Reader α) : Prop :=
  ∀ c, c.Has T → match r.run c with
    | .ok (a, c') => Q a ∧ c'.Has T
    | .error i => i.At T

theorem blames_pure {a : α} (h : Q a) : Blames T Q (pure a : Reader α) := fun _ hc => ⟨h, hc⟩

theorem blames_bind {r : Reader α} {f : α → Reader β} (hr : Blames T Q r)
    (hf : ∀ a, Q a → Blames T R (f a)) : Blames T R (r >>= f) := by
  intro c hc
  rw [run_bind]
  have h := hr c hc
  cases he : r.run c with
  | error i =>
    rw [he] at h
    exact h
  | ok p =>
    rw [he] at h
    exact hf p.1 h.1 p.2 h.2

theorem blames_fail {t : Token} (h : T t) {fault : SyntaxFault} (hf : ∀ u ∈ fault.found?, u = t) :
    Blames T Q (fail t fault : Reader α) := fun _ _ => ⟨t, h, rfl, hf⟩

theorem blames_expected {t : Token} (h : T t) (what : String) :
    Blames T Q (fail t (.expected what t) : Reader α) :=
  blames_fail h fun _ hu => (Option.mem_some.mp hu).symm

theorem blames_unexpected {t : Token} (h : T t) :
    Blames T Q (fail t (.unexpected t) : Reader α) :=
  blames_fail h fun _ hu => (Option.mem_some.mp hu).symm

theorem blames_other {t : Token} (h : T t) {fault : SyntaxFault} (hf : fault.found? = none) :
    Blames T Q (fail t fault : Reader α) :=
  blames_fail h (by simp [hf])

theorem blames_get : Blames T (·.Has T) (get : Reader Cursor) := fun _ hc => ⟨hc, hc⟩

theorem blames_set {c : Cursor} (h : c.Has T) : Blames T (fun _ => True) (set c : Reader PUnit) :=
  fun _ _ => ⟨trivial, h⟩

theorem blames_layout (f : Cursor → List Int) :
    Blames T (fun _ => True) (modify fun c => { c with layout := f c } : Reader PUnit) :=
  fun _ hc => ⟨trivial, hc⟩

theorem blames_skip : Blames T (fun _ => True) skip := fun _ hc => ⟨trivial, hc.advance⟩

theorem blames_peek : Blames T T peek := fun _ hc => ⟨hc.peek, hc⟩

theorem blames_next : Blames T T next := fun _ hc => ⟨hc.peek, hc.advance⟩

theorem blames_expect (kind : TokenKind) (what : String) : Blames T T (expect kind what) := by
  refine blames_bind blames_peek fun t ht => ?_
  split
  · exact blames_next
  · exact blames_expected ht what

theorem blames_expectEnd : Blames T (fun _ => True) expectEnd := by
  refine blames_bind blames_peek fun t ht => ?_
  split
  · exact blames_pure trivial
  · exact blames_unexpected ht

theorem blames_withColumn {r : Reader α} (col : Int) (hr : Blames T Q r) :
    Blames T Q (withColumn col r) := by
  refine blames_bind (blames_layout _) fun _ _ => blames_bind hr fun a ha => ?_
  exact blames_bind (blames_layout _) fun _ _ => blames_pure ha

/-- A reader that is run on all tokens. -/
theorem blames_runAll {r : Reader α} (hr : Blames T Q r) {toks : List Token} {stop : Pos}
    (hc : Cursor.Has T ⟨toks, stop, []⟩) :
    match r.runAll toks stop with
    | .ok a => Q a
    | .error i => i.At T := by
  have hall : Blames T Q (do let a ← r; expectEnd; return a : Reader α) :=
    blames_bind hr fun a ha => blames_bind blames_expectEnd fun _ _ => blames_pure ha
  have h := hall ⟨toks, stop, []⟩ hc
  unfold runAll
  cases hrun : (do let a ← r; expectEnd; return a : Reader α).run ⟨toks, stop, []⟩ with
  | error i =>
    rw [hrun] at h
    exact h
  | ok p =>
    rw [hrun] at h
    exact h.1

/-! ## At the end -/

/-- What the readers of a text are given: tokens of which none stands for an end, and their end. -/
def Given (toks : List Token) (stop : Pos) (t : Token) : Prop :=
  t ∈ toks ∧ t.kind ≠ .eof ∨ t = .eof stop

theorem given_of_mem {toks : List Token} (h : ∀ t ∈ toks, t.kind ≠ .eof) (stop : Pos) :
    Cursor.Has (Given toks stop) ⟨toks, stop, []⟩ :=
  ⟨.inr rfl, fun t ht => .inl ⟨ht, h t ht⟩⟩

theorem at_end {toks : List Token} {stop : Pos} {i : Issue} (h : i.At (Given toks stop))
    (he : i.fault.AtEnd) : i.pos = stop := by
  obtain ⟨t, ht, hpos, hfound⟩ := h
  obtain ⟨u, hu, heof⟩ := he
  rw [hfound u hu] at heof
  obtain ⟨-, hne⟩ | rfl := ht
  · exact absurd heof hne
  · exact hpos

end Reader

/-! ## The grammar -/

namespace Grammar

open Reader

variable {T : Token → Prop} {S : Set Pos}

theorem blames_exhausted {α : Type} {Q : α → Prop} : Blames T Q (exhausted : Reader α) :=
  blames_bind blames_peek fun _ ht => blames_unexpected ht

theorem blames_params : Blames T (fun _ => True) params := by
  refine blames_bind blames_get fun c hc => ?_
  refine blames_bind (blames_set ?_) fun _ _ => blames_pure trivial
  exact ⟨hc.1, mem_paramsFrom _ _ hc.2⟩

theorem blames_checkChain (t : Token) (op : Operator) : Blames T (fun _ => True) (checkChain t op) := by
  refine blames_bind blames_get fun c hc => ?_
  simp only
  split
  · split
    · split
      · exact blames_other hc.peek rfl
      · exact blames_pure trivial
    · exact blames_pure trivial
  · exact blames_pure trivial

theorem places_leaf {e : Expr} (hpos : e.pos ∈ S) (h : ∀ x, ¬ Expr.Part x e) : e.places ⊆ S :=
  Expr.places_subset hpos fun x hx => absurd hx (h x)

section
variable (hS : ∀ t, T t → t.pos ∈ S)
include hS

theorem blames_types (n : Nat) :
    Blames T (·.Within S) (typeExpr n) ∧
    (∀ done, (∀ t ∈ done, t.Within S) → Blames T (∀ t ∈ ·, t.Within S) (typeArgs n done)) ∧
    Blames T (·.Within S) (typeAtom n) := by
  induction n with
  | zero => exact ⟨blames_exhausted, fun _ _ => blames_exhausted, blames_exhausted⟩
  | succ n ih =>
    obtain ⟨hexpr, hargs, hatom⟩ := ih
    refine ⟨?_, fun done hd => ?_, ?_⟩
    · unfold typeExpr
      refine blames_bind hatom fun head hh => blames_bind (hargs [] (List.forall_mem_nil _)) fun args ha => ?_
      refine blames_bind blames_peek fun _ _ => ?_
      have ht : (if args.isEmpty then head else TypeExpr.app head args).Within S := by
        split
        · exact hh
        · exact .app hh ha
      split
      · exact blames_bind blames_skip fun _ _ => blames_bind hexpr fun cod hc =>
          blames_pure (.arrow ht hc)
      · exact blames_pure ht
    · unfold typeArgs
      refine blames_bind blames_peek fun _ _ => ?_
      split
      · exact blames_bind hatom fun t ht => hargs _ (List.forall_mem_cons.mpr ⟨ht, hd⟩)
      · exact blames_pure fun t ht => hd t (List.mem_reverse.mp ht)
    · unfold typeAtom
      refine blames_bind blames_next fun t ht => ?_
      split
      · exact blames_pure (.con (hS t ht))
      · exact blames_pure (.var (hS t ht))
      · refine blames_bind blames_peek fun _ _ => ?_
        split
        · exact blames_bind blames_skip fun _ _ => blames_pure (.unit (hS t ht))
        · exact blames_bind hexpr fun inner hi => blames_bind (blames_expect _ _) fun _ _ =>
            blames_pure hi
      · exact blames_expected ht _

/-- With `n` units of fuel, the readers of expressions blame a token that has `T`, or make trees that stand
in `S`. -/
structure Blaming (T : Token → Prop) (S : Set Pos) (n : Nat) : Prop where
  operation : ∀ level, Blames T (·.places ⊆ S) (operation n level)
  operationFrom : ∀ level left, left.places ⊆ S → Blames T (·.places ⊆ S) (operationFrom n level left)
  operand : Blames T (·.places ⊆ S) (operand n)
  application : Blames T (·.places ⊆ S) (application n)
  arguments : ∀ done, (∀ e ∈ done, e.places ⊆ S) →
    Blames T (∀ e ∈ ·, e.places ⊆ S) (arguments n done)
  atom : Blames T (·.places ⊆ S) (atom n)
  parenthesized : ∀ t, T t → Blames T (·.places ⊆ S) (parenthesized n t)
  lambda : Blames T (·.places ⊆ S) (lambda n)
  cond : Blames T (·.places ⊆ S) (cond n)
  letIn : Blames T (·.places ⊆ S) (letIn n)
  bindings : ∀ col done, (∀ b ∈ done, b.body.places ⊆ S) →
    Blames T (∀ b ∈ ·, b.body.places ⊆ S) (bindings n col done)
  binding : ∀ strict, Blames T (fun b => b.pos ∈ S ∧ b.body.places ⊆ S) (binding n strict)

omit hS in
theorem blaming_zero : Blaming T S 0 where
  operation _ := blames_exhausted
  operationFrom _ _ _ := blames_exhausted
  operand := blames_exhausted
  application := blames_exhausted
  arguments _ _ := blames_exhausted
  atom := blames_exhausted
  parenthesized _ _ := blames_exhausted
  lambda := blames_exhausted
  cond := blames_exhausted
  letIn := blames_exhausted
  bindings _ _ _ := blames_exhausted
  binding _ := blames_exhausted

theorem blaming_succ {n : Nat} (ih : Blaming T S n) : Blaming T S (n + 1) where
  operation level := by
    unfold Grammar.operation
    exact blames_bind ih.operand fun left hl => ih.operationFrom level left hl
  operationFrom level left hl := by
    unfold Grammar.operationFrom
    refine blames_bind blames_get fun c hc => ?_
    simp only
    split
    · exact blames_pure hl
    · split
      · exact blames_other hc.peek rfl
      · split
        · exact blames_pure hl
        · refine blames_bind blames_skip fun _ _ => blames_bind (ih.operation _) fun right hr => ?_
          -- operators that do not chain are blamed on the second one
          refine blames_bind (blames_checkChain _ _) fun _ _ => ih.operationFrom _ _ ?_
          refine Expr.places_subset (hS _ hc.peek) fun x hx => ?_
          cases hx with
          | left => exact hl
          | right => exact hr
  operand := by
    unfold Grammar.operand
    refine blames_bind blames_peek fun t ht => ?_
    split
    · exact ih.lambda
    · exact ih.letIn
    · exact ih.cond
    · split
      · refine blames_bind blames_skip fun _ _ => blames_bind (ih.operation _) fun e he => ?_
        refine blames_pure (Expr.places_subset (hS t ht) fun x hx => ?_)
        cases hx
        exact he
      · exact ih.application
    · exact ih.application
  application := by
    unfold Grammar.application
    refine blames_bind ih.atom fun fn hf => blames_bind (ih.arguments [] (List.forall_mem_nil _)) fun args ha => ?_
    refine blames_pure ?_
    split
    · exact hf
    · refine Expr.places_subset (hf fn.pos_mem_places) fun x hx => ?_
      cases hx with
      | function => exact hf
      | argument hx => exact ha x hx
  arguments done hd := by
    unfold Grammar.arguments
    refine blames_bind blames_get fun c _ => ?_
    split
    · exact blames_bind ih.atom fun a ha => ih.arguments _ (List.forall_mem_cons.mpr ⟨ha, hd⟩)
    · exact blames_pure fun e he => hd e (List.mem_reverse.mp he)
  atom := by
    unfold Grammar.atom
    refine blames_bind blames_peek fun t ht => ?_
    split
    · exact blames_bind blames_skip fun _ _ => blames_pure (places_leaf (hS t ht) (by rintro _ ⟨⟩))
    · exact blames_bind blames_skip fun _ _ => blames_pure (places_leaf (hS t ht) (by rintro _ ⟨⟩))
    · refine blames_bind blames_skip fun _ _ => ?_
      split
      · exact blames_pure (places_leaf (hS t ht) (by rintro _ ⟨⟩))
      · exact blames_pure (places_leaf (hS t ht) (by rintro _ ⟨⟩))
      · exact blames_other ht rfl
    · refine blames_bind blames_skip fun _ _ => ?_
      split
      · exact blames_pure (places_leaf (hS t ht) (by rintro _ ⟨⟩))
      · exact blames_other ht rfl
    · exact blames_bind blames_skip fun _ _ => blames_pure (places_leaf (hS t ht) (by rintro _ ⟨⟩))
    · exact blames_bind blames_skip fun _ _ => ih.parenthesized t ht
    · exact blames_unexpected ht
  parenthesized t ht := by
    unfold Grammar.parenthesized
    refine blames_bind blames_get fun c hc => ?_
    simp only
    split
    · exact blames_bind blames_skip fun _ _ => blames_pure (places_leaf (hS t ht) (by rintro _ ⟨⟩))
    · split
      · split
        · exact blames_other hc.peek rfl
        · exact blames_bind blames_skip fun _ _ => blames_bind blames_skip fun _ _ =>
            blames_pure (places_leaf (hS t ht) (by rintro _ ⟨⟩))
      · refine blames_bind (blames_withColumn 0 (ih.operation 0)) fun e he => ?_
        exact blames_bind (blames_expect _ _) fun _ _ => blames_pure he
  lambda := by
    unfold Grammar.lambda
    refine blames_bind blames_next fun t ht => blames_bind blames_params fun ps _ => ?_
    split
    · exact blames_bind blames_peek fun _ hu => blames_expected hu _
    · refine blames_bind (blames_expect _ _) fun _ _ => blames_bind (ih.operation 0) fun e he => ?_
      refine blames_pure (Expr.places_subset (hS t ht) fun x hx => ?_)
      cases hx
      exact he
  cond := by
    unfold Grammar.cond
    refine blames_bind blames_next fun t ht => blames_bind (ih.operation 0) fun test htest => ?_
    refine blames_bind (blames_expect _ _) fun _ _ => blames_bind (ih.operation 0) fun yes hyes => ?_
    refine blames_bind (blames_expect _ _) fun _ _ => blames_bind (ih.operation 0) fun no hno => ?_
    refine blames_pure (Expr.places_subset (hS t ht) fun x hx => ?_)
    cases hx with
    | test => exact htest
    | yes => exact hyes
    | no => exact hno
  letIn := by
    unfold Grammar.letIn
    refine blames_bind blames_next fun t ht => blames_bind blames_peek fun first hfirst => ?_
    split
    · exact blames_expected hfirst _
    · refine blames_bind (blames_withColumn _ (ih.bindings _ _ (List.forall_mem_nil _))) fun binds hb => ?_
      refine blames_bind (blames_expect _ _) fun _ _ => blames_bind (ih.operation 0) fun e he => ?_
      refine blames_pure (Expr.places_subset (hS t ht) fun x hx => ?_)
      cases hx with
      | bound hb' => exact hb _ hb'
      | letBody => exact he
  bindings col done hd := by
    unfold Grammar.bindings
    refine blames_bind (ih.binding false) fun b hb => blames_bind blames_peek fun t ht => ?_
    have hbs : ∀ b' ∈ b :: done, b'.body.places ⊆ S := List.forall_mem_cons.mpr ⟨hb.2, hd⟩
    split
    · exact blames_bind blames_skip fun _ _ => ih.bindings _ _ hbs
    · split
      · exact blames_pure fun b' hm => hbs b' (List.mem_reverse.mp hm)
      · split
        · exact ih.bindings _ _ hbs
        · exact blames_expected ht _
  binding strict := by
    unfold Grammar.binding
    refine blames_bind (blames_expect _ _) fun t ht => blames_bind blames_params fun ps _ => ?_
    refine blames_bind (blames_expect _ _) fun eq heq => ?_
    split
    · exact blames_other heq rfl
    · exact blames_bind (ih.operation 0) fun body hb => blames_pure ⟨hS t ht, hb⟩

theorem blaming (n : Nat) : Blaming T S n := by
  induction n with
  | zero => exact blaming_zero
  | succ n ih => exact blaming_succ hS ih

theorem blames_expr : Blames T (·.places ⊆ S) expr :=
  blames_bind blames_get fun _ _ => (blaming hS _).operation 0

omit hS in
theorem blames_signatureNames (n : Nat) :
    ∀ done, Blames T (fun _ => True) (signatureNames n done) := by
  induction n with
  | zero => exact fun _ => blames_exhausted
  | succ n ih =>
    intro done
    unfold signatureNames
    refine blames_bind blames_peek fun _ _ => ?_
    split
    · exact blames_bind blames_skip fun _ _ => blames_bind (blames_expect _ _) fun _ _ => ih _
    · exact blames_pure trivial

theorem blames_decl : Blames T (Decl.Within S) decl := by
  unfold decl
  refine blames_bind blames_get fun c hc => ?_
  simp only
  split
  · exact blames_bind blames_skip fun _ _ => blames_bind (blames_expect _ _) fun _ _ =>
      blames_pure (hS _ hc.peek)
  · exact blames_bind blames_skip fun _ _ => blames_bind ((blaming hS _).binding true) fun b hb =>
      blames_pure hb
  · split
    · refine blames_bind (blames_expect _ _) fun t ht => blames_bind blames_get fun _ _ => ?_
      refine blames_bind (blames_signatureNames _ _) fun _ _ => blames_bind (blames_expect _ _) fun _ _ => ?_
      refine blames_bind blames_get fun _ _ => blames_bind (blames_types hS _).1 fun type htype => ?_
      exact blames_pure ⟨hS t ht, htype⟩
    · exact blames_bind ((blaming hS _).binding false) fun b hb => blames_pure hb
  · exact blames_expected hc.peek _

theorem blames_moduleHeader : Blames T (·.1 ∈ S) moduleHeader := by
  unfold moduleHeader
  refine blames_bind (blames_expect _ _) fun t ht => blames_bind (blames_expect _ _) fun _ _ => ?_
  exact blames_bind (blames_expect _ _) fun _ _ => blames_pure (hS t ht)

end

end Grammar

/-! ## Items -/

namespace Item

theorem starts_splitFrom (toks : List Token) : ∀ (first : Token) (seen : List Token)
    (done : List Item), ∃ rest items, splitFrom first seen done toks =
      done.reverse ++ ⟨first, rest⟩ :: items ∧ ∀ i ∈ items, startsItem i.first = true := by
  induction toks with
  | nil => exact fun first seen done => ⟨seen.reverse, [], by simp [splitFrom], nofun⟩
  | cons t ts ih =>
    intro first seen done
    unfold splitFrom
    split
    · rename_i ht
      obtain ⟨rest, items, he, hitems⟩ := ih t [] (⟨first, seen.reverse⟩ :: done)
      refine ⟨seen.reverse, ⟨t, rest⟩ :: items, by simp [he], ?_⟩
      exact List.forall_mem_cons.mpr ⟨ht, hitems⟩
    · exact ih first (t :: seen) done

theorem starts_split (toks : List Token) :
    (split toks).Pairwise fun _ j => startsItem j.first = true := by
  cases toks with
  | nil => exact .nil
  | cons t ts =>
    obtain ⟨rest, items, he, hitems⟩ := starts_splitFrom ts t [] []
    rw [split, he]
    exact .cons hitems (List.pairwise_of_forall_mem_list fun _ _ j hj => hitems j hj)

end Item

/-- The tokens come one after the other, and one that starts a line stands below those before it. -/
def Token.Lined (toks : List Token) : Prop :=
  toks.Pairwise fun t u => t.pos.Before u.pos ∧ (u.startsLine = true → t.pos.line < u.pos.line)

theorem Lexed.lined_ofText {source text : String} {x : Lexed} (h : ofText source text = .ok x) :
    Token.Lined x.tokens := by
  obtain ⟨hbefore, hstarts⟩ := starts_ofText h
  rw [Token.Lined, List.pairwise_iff_getElem]
  intro i j hi hj hij
  have hij' := List.pairwise_iff_getElem.mp hbefore i j hi hj hij
  refine ⟨hij', fun hs => ?_⟩
  have hsplit : x.tokens = x.tokens.take j ++ x.tokens[j] :: x.tokens.drop (j + 1) := by simp
  have hmem : x.tokens[i] ∈ x.tokens.take j := List.mem_take_iff_getElem.mpr ⟨i, by omega, rfl⟩
  have hne := (hstarts _ _ _ hsplit).mp hs _ hmem
  rcases hij' with hlt | ⟨heq, -⟩
  · exact hlt
  · exact absurd heq hne

namespace Item

theorem lines_split {toks : List Token} (h : Token.Lined toks) :
    (split toks).Pairwise fun i j => ∀ t ∈ i.toks, ∀ u ∈ j.toks, t.pos.line < u.pos.line := by
  rw [Token.Lined, ← toks_split toks, List.pairwise_flatMap] at h
  refine (h.2.and ((starts_split toks).and (List.pairwise_of_forall_mem_list fun _ _ j hj => h.1 j hj))).imp ?_
  rintro i ⟨first, rest⟩ ⟨hij, hstarts, hinner⟩ t ht u hu
  simp only [startsItem, Bool.and_eq_true] at hstarts
  have hfirst := (hij t ht first List.mem_cons_self).2 hstarts.1
  rcases List.mem_cons.mp hu with rfl | hu
  · exact hfirst
  · have hbefore : first.pos.Before u.pos := (List.rel_of_pairwise_cons hinner hu).1
    rcases hbefore with hlt | ⟨heq, -⟩
    · exact hfirst.trans hlt
    · exact heq ▸ hfirst

theorem last_mem (i : Item) : i.rest.getLastD i.first ∈ i.toks := by
  obtain ⟨first, rest⟩ := i
  cases rest with
  | nil => exact List.mem_cons_self
  | cons t ts => exact List.mem_cons_of_mem _ (List.mem_of_getLast? rfl)

theorem fault_line {i : Item} {issue : Issue} (h : i.decl = .error issue) :
    ∃ t ∈ i.toks, issue.pos.line = t.pos.line := by
  let S : Set Pos := {p | ∃ t ∈ i.toks, p.line = t.pos.line}
  have hstop : i.stop ∈ S := ⟨_, i.last_mem, rfl⟩
  have htoks : ∀ t ∈ i.toks, t.pos ∈ S := fun t ht => ⟨t, ht, rfl⟩
  have hblames := Reader.blames_runAll (Grammar.blames_decl fun _ => id)
    (Cursor.has_of_pos hstop htoks)
  rw [decl] at h
  rw [h] at hblames
  exact hblames.pos_mem

end Item

/-! ## Texts -/

/-- The places that there are in texts. -/
def Pos.placed : Set Pos := {p | 1 ≤ p.line}

theorem Pos.placed_after (cs : List Char) : Pos.start.after cs ∈ placed :=
  Pos.line_le_after .start cs

theorem Lexed.placed_ofText {source text : String} {x : Lexed} (h : ofText source text = .ok x) :
    (∀ t ∈ x.tokens, t.pos ∈ Pos.placed) ∧ x.stop ∈ Pos.placed := by
  have htokens : ∀ t ∈ x.tokens, t.pos ∈ Pos.placed := by
    intro t ht
    obtain ⟨more, hm⟩ := (laid_ofText h).pos t ht
    rw [hm]
    exact Pos.placed_after _
  refine ⟨htokens, ?_⟩
  unfold ofText at h
  split at h
  · cases h
  · rename_i ls _
    cases h
    simp only at htokens ⊢
    cases hlast : (Lexeme.tokens ls).getLast? with
    | none => exact Pos.placed_after _
    | some t => exact htokens t (List.mem_of_getLast? hlast)

/-- The faults stand in lines of the source, one below the other. -/
structure SyntaxError.Listed (source : String) (es : List SyntaxError) : Prop where
  placed : ∀ e ∈ es, e.source = source ∧ e.pos ∈ Pos.placed
  below : es.Pairwise fun e f => e.pos.line < f.pos.line

theorem SyntaxError.listed_singleton {source : String} {pos : Pos} (h : pos ∈ Pos.placed)
    (fault : SyntaxFault) : Listed source [⟨source, pos, fault⟩] :=
  ⟨List.forall_mem_singleton.mpr ⟨rfl, h⟩, List.pairwise_singleton ..⟩

open SyntaxError (Listed listed_singleton)

variable {source text : String} {es : List SyntaxError}

theorem Lexed.ofText_error {e : SyntaxError} (h : ofText source text = .error e) :
    Listed source [e] := by
  unfold ofText at h
  split at h
  · cases h
    exact listed_singleton (Pos.placed_after _) _
  · cases h

theorem Decl.listed_ofItems {toks : List Token} (hlined : Token.Lined toks)
    (hplaced : ∀ t ∈ toks, t.pos ∈ Pos.placed) (h : ofItems source (Item.split toks) = .error es) :
    Listed source es := by
  have hmem : ∀ i ∈ Item.split toks, ∀ t ∈ i.toks, t.pos ∈ Pos.placed := Item.mem_split hplaced
  unfold ofItems at h
  simp only at h
  split at h
  · cases h
  · cases h
    refine ⟨fun e he => ?_, ?_⟩
    · obtain ⟨r, hr, he⟩ := List.mem_filterMap.mp he
      obtain ⟨i, hi, rfl⟩ := List.mem_map.mp hr
      split at he
      · rename_i issue hissue
        cases he
        obtain ⟨t, ht, hline⟩ := Item.fault_line hissue
        have := hmem i hi t ht
        exact ⟨rfl, by simpa [Pos.placed, Issue.in, hline] using this⟩
      · cases he
    · rw [List.pairwise_filterMap, List.pairwise_map]
      refine (Item.lines_split hlined).imp fun {i j} hij e he f hf => ?_
      split at he
      · rename_i issue hi
        cases he
        split at hf
        · rename_i issue' hj
          cases hf
          obtain ⟨t, ht, hit⟩ := Item.fault_line hi
          obtain ⟨u, hu, hju⟩ := Item.fault_line hj
          have := hij t ht u hu
          simpa [Issue.in, hit, hju] using this
        · cases hf
      · cases he

namespace Module

theorem listed_ofTokens {toks : List Token} {stop : Pos} (hlined : Token.Lined toks)
    (hplaced : ∀ t ∈ toks, t.pos ∈ Pos.placed) (hstop : stop ∈ Pos.placed)
    (h : ofTokens source toks stop = .error es) : Listed source es := by
  have hblames := Grammar.blames_moduleHeader (fun _ => id) _ (Cursor.has_of_pos hstop hplaced)
  unfold ofTokens at h
  split at h
  · rename_i issue hissue
    rw [hissue] at hblames
    cases h
    exact listed_singleton hblames.pos_mem _
  · rename_i pos name c hc
    rw [hc] at hblames
    obtain ⟨t₁, t₂, t₃, htoks, -⟩ := Grammar.moduleHeader_ok hc
    have hrest : c.toks.Sublist toks := by
      rw [htoks]
      exact List.sublist_append_right [t₁, t₂, t₃] _
    cases hds : Decl.ofItems source (Item.split c.toks) with
    | error es' =>
      rw [hds] at h
      cases h
      exact Decl.listed_ofItems (hlined.sublist hrest) hblames.2.2 hds
    | ok ds =>
      rw [hds] at h
      cases h

theorem listed_ofText (h : ofText source text = .error es) : Listed source es := by
  unfold ofText at h
  split at h
  · rename_i e he
    cases h
    exact Lexed.ofText_error he
  · rename_i toks stop hlex
    obtain ⟨hplaced, hstop⟩ := Lexed.placed_ofText hlex
    split at h
    · cases h
      exact listed_singleton hstop _
    · split at h
      · exact listed_ofTokens (Lexed.lined_ofText hlex) hplaced hstop h
      · cases h
        exact listed_singleton (hplaced _ List.mem_cons_self) _

theorem within_ofText {m : Module} (h : ofText source text = .ok m) :
    m.pos ∈ Pos.placed ∧ ∀ d ∈ m.decls, d.Within Pos.placed := by
  obtain ⟨x, t₁, t₂, t₃, ts, hlex, hx, -, -, -, hpos, -, hds⟩ := ofText_ok h
  obtain ⟨hplaced, -⟩ := Lexed.placed_ofText hlex
  rw [hx] at hplaced
  refine ⟨hpos ▸ hplaced _ List.mem_cons_self, fun d hd => ?_⟩
  have hmem : Except.ok d ∈ (Item.split ts).map Item.decl := by
    rw [Decl.ofItems_ok.mp hds]
    exact List.mem_map_of_mem hd
  obtain ⟨i, hi, hid⟩ := List.mem_map.mp hmem
  have htoks : ∀ t ∈ i.toks, t.pos ∈ Pos.placed :=
    Item.mem_split (fun t ht => hplaced t (by simp [ht])) i hi
  have hstop : i.stop ∈ Pos.placed := htoks _ i.last_mem
  have hblames := Reader.blames_runAll (Grammar.blames_decl fun _ => id)
    (Cursor.has_of_pos hstop htoks)
  rw [← Item.decl, hid] at hblames
  exact hblames

end Module

namespace Fragment

theorem placed_mixedAt {toks : List Token} (hplaced : ∀ t ∈ toks, t.pos ∈ Pos.placed) :
    mixedAt (Item.split toks) ∈ Pos.placed := by
  have hfirst : ∀ i ∈ Item.split toks, i.first.pos ∈ Pos.placed := fun i hi =>
    Item.mem_split hplaced i hi _ List.mem_cons_self
  unfold mixedAt
  split
  · exact Int.le_refl 1
  · rename_i i rest he
    rw [he] at hfirst
    split
    · rename_i j hj
      exact hfirst j (List.mem_cons_of_mem _ (List.mem_of_find?_eq_some hj))
    · exact hfirst i List.mem_cons_self

/-- **The faults of a text are told from top to bottom**: each is in a line below the one before. -/
theorem listed_ofText (h : ofText source text = .error es) : Listed source es := by
  unfold ofText at h
  split at h
  · rename_i e he
    cases h
    exact Lexed.ofText_error he
  · rename_i toks stop hlex
    obtain ⟨hplaced, hstop⟩ := Lexed.placed_ofText hlex
    have hlined := Lexed.lined_ofText hlex
    split at h
    · cases h
    · split at h
      · cases hm : Module.ofTokens source _ stop with
        | ok m => rw [hm] at h; cases h
        | error es' =>
          rw [hm] at h
          cases h
          exact Module.listed_ofTokens hlined hplaced hstop hm
      · unfold ofItems at h
        split at h
        · cases hds : Decl.ofItems source (Item.split _) with
          | ok ds => rw [hds] at h; cases h
          | error es' =>
            rw [hds] at h
            cases h
            exact Decl.listed_ofItems hlined hplaced hds
        · split at h
          · cases h
            exact listed_singleton (placed_mixedAt hplaced) _
          · have hblames := Reader.blames_runAll (Grammar.blames_expr fun _ => id)
              (Cursor.has_of_pos hstop hplaced)
            split at h
            · rename_i issue hissue
              rw [hissue] at hblames
              cases h
              exact listed_singleton hblames.pos_mem _
            · cases h

end Fragment

end LazySession

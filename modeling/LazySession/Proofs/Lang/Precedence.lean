import LazySession.Proofs.Lang.Fuel
import LazySession.Proofs.Lang.Grouping
import LazySession.Proofs.Lang.Reparsing

/-!
# Reading operators by their levels

`Grammar.expr_chain`: a row of operands with operators between them is read as the one tree in which
every operator allows those below it, and is refused if two comparisons have only operators that
bind tighter between them.
-/

namespace LazySession

open Operator (Unchained)

namespace Grammar

open Reader

/-! ## Operands -/

/-- In front of `rest`, the tokens are an operand that stands for the expression: a variable, a
literal, an operator in parentheses, or an expression in parentheses. -/
inductive Operand (stop : Pos) (layout : List Int) (rest : List Token) : List Token → Expr → Prop
  | var {t : Token} (h : t.kind = .ident) : Operand stop layout rest [t] (.var t.pos t.text)
  | qualified {t : Token} (h : t.kind = .qvar) :
    Operand stop layout rest [t]
      (.qualified t.pos (splitQualified t.text).1 (splitQualified t.text).2)
  | bool {t : Token} {b : Bool} (h : t.kind = .conid) (hb : t.text = if b then "True" else "False") :
    Operand stop layout rest [t] (.bool t.pos b)
  | int {t : Token} {v : Int64} (h : t.kind = .int) (hv : Text.unsigned? t.text.toList = some v) :
    Operand stop layout rest [t] (.int t.pos v)
  | str {t : Token} (h : t.kind = .string) : Operand stop layout rest [t] (.str t.pos t.text)
  | unit {l r : Token} (hl : l.kind = .lparen) (hr : r.kind = .rparen) :
    Operand stop layout rest [l, r] (.unit l.pos)
  | operator {l t r : Token} {op : Operator} (hl : l.kind = .lparen) (ht : t.kind = .op)
    (hop : Operator.ofText? t.text = some op) (hr : r.kind = .rparen) :
    Operand stop layout rest [l, t, r] (.operator l.pos op)
  | parens {l r : Token} {inner : List Token} {e : Expr} (hl : l.kind = .lparen)
    (hr : r.kind = .rparen) (h : expr.run ⟨inner ++ r :: rest, stop, 0 :: layout⟩ =
      .ok (e, ⟨r :: rest, stop, 0 :: layout⟩)) :
    Operand stop layout rest (l :: (inner ++ [r])) e

section
variable {stop : Pos} {layout : List Int} {rest ts : List Token} {e : Expr} {n : Nat}

theorem run_expr (c : Cursor) : expr.run c = (operation (fuel c) 0).run c := by
  unfold expr
  rw [run_bind, run_get]

theorem operation_rparen {c c' : Cursor} (hk : c.peek.kind = .rparen) (level : Nat) :
    (operation n level).run c ≠ .ok (e, c') := by
  intro h
  have hmore := within_operation (Nat.le_add_right n 4) level c e c' h
  simp only [operation, operand, application, atom, run_bind, run_peek, hk] at hmore
  cases hmore

theorem opens_of_operation {c c' : Cursor} (h : (operation n 0).run c = .ok (e, c')) :
    c.peek.kind ≠ .rparen ∧ ¬ (c.peek.kind = .op ∧ c.peekSecond.kind = .rparen) := by
  refine ⟨fun hk => operation_rparen hk 0 h, ?_⟩
  rintro ⟨hk, hk'⟩
  have hmore := within_operation (Nat.le_add_right n 4) 0 c e c' h
  rw [operation] at hmore
  obtain ⟨a, c₁, ha, -⟩ := bind_ok hmore
  rw [operand, run_bind, run_peek] at ha
  simp only [hk] at ha
  split at ha
  · -- a sign stands in front of an operand, too
    obtain ⟨_, c₂, hs, ha⟩ := bind_ok ha
    cases hs
    obtain ⟨b, c₃, hb, -⟩ := bind_ok ha
    exact operation_rparen (c := c.advance) hk' 7 hb
  · simp only [application, atom, run_bind, run_peek, hk] at ha
    cases ha

theorem Operand.yields_atom (h : Operand stop layout rest ts e)
    (hn : 8 * (ts.length + rest.length) + 2 ≤ n) :
    (atom n).Yields ⟨ts ++ rest, stop, layout⟩ fun a c => a = e ∧ c = ⟨rest, stop, layout⟩ := by
  obtain ⟨n, rfl⟩ : ∃ m, n = m + 2 := ⟨n - 2, by omega⟩
  rw [atom]
  cases h with
  | var h | str h | qualified h =>
    refine yields_peek ?_
    simp only [h]
    exact yields_skip (yields_pure ⟨rfl, rfl⟩)
  | @bool t b h hb =>
    refine yields_peek ?_
    simp only [h]
    refine yields_skip ?_
    cases b
    · simp only [show t.text = "False" from hb]
      exact yields_pure ⟨rfl, rfl⟩
    · simp only [show t.text = "True" from hb]
      exact yields_pure ⟨rfl, rfl⟩
  | int h hv =>
    refine yields_peek ?_
    simp only [h]
    refine yields_skip ?_
    rw [hv]
    exact yields_pure ⟨rfl, rfl⟩
  | @unit l r hl hr =>
    simp only [List.cons_append, List.nil_append]
    refine yields_peek ?_
    simp only [hl]
    refine yields_skip ?_
    rw [parenthesized]
    refine yields_get ?_
    rw [if_pos (show (Cursor.peek ⟨r :: rest, stop, layout⟩).kind = .rparen from hr)]
    exact yields_skip (yields_pure ⟨rfl, rfl⟩)
  | @operator l t r op hl ht hop hr =>
    have hne : (Cursor.peek ⟨t :: r :: rest, stop, layout⟩).kind ≠ .rparen := by
      simp [Cursor.peek, ht]
    have htext : Operator.ofText? (Cursor.peek ⟨t :: r :: rest, stop, layout⟩).text = some op := hop
    simp only [List.cons_append, List.nil_append]
    refine yields_peek ?_
    simp only [hl]
    refine yields_skip ?_
    rw [parenthesized]
    refine yields_get ?_
    rw [if_neg hne, if_pos ⟨ht, hr⟩, htext]
    exact yields_skip (yields_skip (yields_pure ⟨rfl, rfl⟩))
  | @parens l r inner e hl hr h =>
    have hinside := opens_of_operation (run_expr _ ▸ h)
    -- the column that a parenthesis adds is not part of the tokens
    have hopens : (Cursor.peek ⟨inner ++ r :: rest, stop, layout⟩).kind ≠ .rparen ∧
        ¬ ((Cursor.peek ⟨inner ++ r :: rest, stop, layout⟩).kind = .op ∧
          (Cursor.peekSecond ⟨inner ++ r :: rest, stop, layout⟩).kind = .rparen) := hinside
    have hfuel : fuel ⟨inner ++ r :: rest, stop, 0 :: layout⟩ ≤ n := by
      simp only [fuel, List.length_append, List.length_cons, List.length_nil] at hn ⊢
      omega
    rw [run_expr] at h
    have hinner := within_operation hfuel 0 _ _ _ h
    simp only [List.cons_append, List.append_assoc, List.nil_append]
    refine yields_peek ?_
    simp only [hl]
    refine yields_skip ?_
    rw [parenthesized]
    refine yields_get ?_
    rw [if_neg hopens.1, if_neg hopens.2]
    refine yields_bind (yields_withColumn ⟨e, _, hinner, ?_⟩)
    exact yields_expect hr (yields_pure ⟨rfl, rfl⟩)

theorem Operand.startsAtom_head (h : Operand stop layout rest ts e) :
    startsAtom (Cursor.peek ⟨ts ++ rest, stop, layout⟩) = true := by
  cases h with
  | var h | qualified h | bool h _ | int h _ | str h | unit h _ | operator h _ _ _ | parens h _ _ =>
    simp [Cursor.peek, startsAtom, h]

/-- What follows is no argument. -/
def Separated (c : Cursor) : Prop := startsAtom c.peek = true → c.atBoundary = true

theorem Operand.run_operand (h : Operand stop layout rest ts e)
    (hr : Separated ⟨rest, stop, layout⟩) (hn : 8 * (ts.length + rest.length) + 4 ≤ n) :
    (operand n).run ⟨ts ++ rest, stop, layout⟩ = .ok (e, ⟨rest, stop, layout⟩) := by
  obtain ⟨n, rfl⟩ : ∃ m, n = m + 3 := ⟨n - 3, by omega⟩
  have happlication : (application (n + 2)).Yields ⟨ts ++ rest, stop, layout⟩ fun a c =>
      a = e ∧ c = ⟨rest, stop, layout⟩ := by
    rw [application]
    refine yields_bind ((h.yields_atom (by omega)).mono ?_)
    rintro a c ⟨rfl, rfl⟩
    rw [arguments]
    refine yields_bind (yields_get ?_)
    rw [if_neg fun hc => hc.2 (hr hc.1)]
    exact yields_pure (yields_pure ⟨rfl, rfl⟩)
  have hk : (Cursor.peek ⟨ts ++ rest, stop, layout⟩).kind ∉ [.backslash, .kwLet, .kwIf, .op] := by
    intro hmem
    have hstart := h.startsAtom_head
    simp only [List.mem_cons, List.not_mem_nil, or_false] at hmem
    rcases hmem with hk | hk | hk | hk <;> simp [startsAtom, hk] at hstart
  obtain ⟨a, c, hrun, rfl, rfl⟩ := yields_operand hk happlication
  exact hrun

/-! ## Rows of operands -/

/-- In front of `rest`, the tokens are operators with operands behind them. -/
inductive Tail (stop : Pos) (layout : List Int) (rest : List Token) : List Token → List Link → Prop
  | nil : Tail stop layout rest [] []
  | cons {t : Token} {op : Operator} {ts us : List Token} {e : Expr} {ls : List Link}
    (ht : t.kind = .op) (hop : Operator.ofText? t.text = some op)
    (hb : Cursor.atBoundary ⟨[t], stop, layout⟩ = false)
    (h : Operand stop layout (us ++ rest) ts e) (hus : Tail stop layout rest us ls) :
    Tail stop layout rest (t :: (ts ++ us)) (⟨t.pos, op, e⟩ :: ls)

/-- In front of `rest`, the tokens are a first operand and others, with operators between them. -/
inductive Chain (stop : Pos) (layout : List Int) (rest : List Token) :
    List Token → Expr → List Link → Prop
  | mk {ts us : List Token} {e : Expr} {ls : List Link} (h : Operand stop layout (us ++ rest) ts e)
    (hus : Tail stop layout rest us ls) : Chain stop layout rest (ts ++ us) e ls

/-- Neither an operator nor an argument follows. -/
def EndsRow (c : Cursor) : Prop :=
  c.atBoundary = true ∨ c.peek.kind ≠ .op ∧ startsAtom c.peek = false

theorem Tail.separated {us : List Token} {ls : List Link} (h : Tail stop layout rest us ls)
    (hr : EndsRow ⟨rest, stop, layout⟩) : Separated ⟨us ++ rest, stop, layout⟩ := by
  cases h with
  | nil =>
    intro hs
    rcases hr with hb | ⟨-, hno⟩
    · exact hb
    · rw [show startsAtom (Cursor.peek ⟨rest, stop, layout⟩) = true from hs] at hno
      cases hno
  | cons ht hop hb h hus =>
    intro hs
    simp [Cursor.peek, startsAtom, ht] at hs

theorem atBoundary_cons (t : Token) (ts : List Token) (stop : Pos) (layout : List Int) :
    Cursor.atBoundary ⟨t :: ts, stop, layout⟩ = Cursor.atBoundary ⟨[t], stop, layout⟩ := rfl

/-- After an operator, the operands that come next are refused if it is a comparison and another one
follows. -/
theorem run_checkChain {us : List Token} {ls : List Link} (h : Tail stop layout rest us ls)
    (hr : EndsRow ⟨rest, stop, layout⟩) (t : Token) (op : Operator) :
    ((checkChain t op).run ⟨us ++ rest, stop, layout⟩ = .ok ((), ⟨us ++ rest, stop, layout⟩) ∧
      ∀ l ∈ ls.head?, op.isComparison = true → l.op.level ≠ op.level) ∨
    ((∃ i, (checkChain t op).run ⟨us ++ rest, stop, layout⟩ = .error i) ∧ op.isComparison = true ∧
      ∃ l ∈ ls.head?, l.op.level = op.level) := by
  unfold checkChain
  simp only [run_bind, run_get]
  cases h with
  | nil =>
    have hno : ¬ (op.associativity = .none ∧ (Cursor.peek ⟨rest, stop, layout⟩).kind = .op ∧
        ¬ Cursor.atBoundary ⟨rest, stop, layout⟩ = true) := by
      rintro ⟨-, hk, hb⟩
      rcases hr with h | h
      · exact hb h
      · exact h.1 hk
    left
    simp only [List.nil_append]
    rw [if_neg hno]
    exact ⟨rfl, by simp⟩
  | @cons u op' ts us e ls ht hop hb h hus =>
    have hpeek : Cursor.peek ⟨u :: (ts ++ us) ++ rest, stop, layout⟩ = u := rfl
    have hbound : Cursor.atBoundary ⟨u :: (ts ++ us) ++ rest, stop, layout⟩ = false := hb
    simp only [hpeek, ht, hbound, hop, Operator.associativity_eq_none]
    by_cases hc : op.isComparison = true
    · rw [if_pos ⟨hc, trivial, by simp⟩]
      by_cases hl : op'.level = op.level
      · rw [if_pos hl]
        exact .inr ⟨⟨_, rfl⟩, hc, _, rfl, hl⟩
      · rw [if_neg hl]
        refine .inl ⟨rfl, fun l hm _ => ?_⟩
        cases hm
        exact hl
    · rw [if_neg fun h => hc h.1]
      exact .inl ⟨rfl, fun _ _ h => absurd h hc⟩

/-! ## Operators -/

/-- What becomes of a left operand and the links behind it: those of at least the level are grouped
with it, or there are comparisons that cannot be. -/
inductive Outcome (stop : Pos) (layout : List Int) (rest : List Token) (level : Nat)
    (left : Grouping) (all : List Token) (ls : List Link) : Except Issue (Expr × Cursor) → Prop
  | groups {t : Grouping} {taken others : List Link} {us : List Token} (hls : ls = taken ++ others)
    (hus : us <:+ all) (htail : Tail stop layout rest us others) (ht : t.Grouped)
    (hfirst : t.first = left.first) (hlinks : t.links = left.links ++ taken)
    (hle : ∀ l ∈ taken, level ≤ l.op.level) (hlt : ∀ l ∈ others.head?, l.op.level < level) :
    Outcome stop layout rest level left all ls (.ok (t.expr, ⟨us ++ rest, stop, layout⟩))
  | chained {i : Issue} (h : ¬ Unchained (ls.map (·.op))) :
    Outcome stop layout rest level left all ls (.error i)

theorem Outcome.stays {level : Nat} {left : Grouping} {us : List Token} {ls : List Link}
    (hus : Tail stop layout rest us ls) (hleft : left.Grouped)
    (hlt : ∀ l ∈ ls.head?, l.op.level < level) :
    Outcome stop layout rest level left us ls (.ok (left.expr, ⟨us ++ rest, stop, layout⟩)) :=
  .groups (List.nil_append ls).symm (List.suffix_refl us) hus hleft rfl (List.append_nil _).symm
    (List.forall_mem_nil _) hlt

/-- An operator and what is read as its right operand go to the left operand. -/
theorem Outcome.joins {level : Nat} {left right : Grouping} {pos : Pos} {op : Operator} {e : Expr}
    {all more us : List Token} {ls taken others : List Link} {r : Except Issue (Expr × Cursor)}
    (hlevel : level ≤ op.level) (hls : ls = taken ++ others) (hus : us <:+ more)
    (hmore : more <:+ all) (hfirst : right.first = e) (hlinks : right.links = taken)
    (hle : ∀ l ∈ taken, op.rightLevel ≤ l.op.level)
    (h : Outcome stop layout rest level (.node pos op left right) us others r) :
    Outcome stop layout rest level left all (⟨pos, op, e⟩ :: ls) r := by
  subst hls hfirst hlinks
  cases h with
  | @groups t taken' others' us' hls' hus' htail ht hfirst' hlinks' hle' hlt =>
    have hall : ⟨pos, op, right.first⟩ :: (right.links ++ others) =
        ⟨pos, op, right.first⟩ :: (right.links ++ taken') ++ others' := by simp [hls']
    refine .groups hall ((hus'.trans hus).trans hmore) htail ht hfirst' ?_ ?_ hlt
    · simp [hlinks', Grouping.links]
    · intro l hl
      rcases List.mem_cons.mp hl with rfl | hl
      · exact hlevel
      · rcases List.mem_append.mp hl with hl | hl
        · exact (hlevel.trans op.level_le_rightLevel).trans (hle l hl)
        · exact hle' l hl
  | chained h =>
    refine .chained fun hall => h ?_
    have happend : Unchained ((op :: right.links.map (·.op)) ++ others.map (·.op)) := by
      simpa using hall
    exact happend.right

/-- One round of the loop: an operator of at least the level takes its right operand. -/
theorem run_operationFrom {t : Token} {op : Operator} (ht : t.kind = .op)
    (hop : Operator.ofText? t.text = some op)
    (hb : Cursor.atBoundary ⟨[t], stop, layout⟩ = false) (n level : Nat) (left : Expr)
    (ts : List Token) :
    (operationFrom (n + 1) level left).run ⟨t :: ts, stop, layout⟩ =
      if op.level < level then .ok (left, ⟨t :: ts, stop, layout⟩)
      else match (operation n op.rightLevel).run ⟨ts, stop, layout⟩ with
        | .error i => .error i
        | .ok (right, c) => match (checkChain t op).run c with
          | .error i => .error i
          | .ok (_, c') => (operationFrom n level (.binary t.pos op left right)).run c' := by
  have hgoes : ¬ (t.kind ≠ .op ∨ Cursor.atBoundary ⟨t :: ts, stop, layout⟩ = true) := by
    rw [atBoundary_cons, hb, ht]
    simp
  have hpeek : Cursor.peek ⟨t :: ts, stop, layout⟩ = t := rfl
  rw [operationFrom, run_bind, run_get]
  simp only [hpeek]
  rw [if_neg hgoes, hop]
  simp only
  split
  · rfl
  · have hskip : skip.run ⟨t :: ts, stop, layout⟩ = .ok ((), ⟨ts, stop, layout⟩) := rfl
    rw [run_bind, hskip]
    simp only
    rw [run_bind]
    cases (operation n op.rightLevel).run ⟨ts, stop, layout⟩ with
    | error i => rfl
    | ok p =>
      simp only
      rw [run_bind]
      cases (checkChain t op).run p.2 <;> rfl

theorem run_operationFrom_end (hr : EndsRow ⟨rest, stop, layout⟩) (n level : Nat) (left : Expr) :
    (operationFrom (n + 1) level left).run ⟨rest, stop, layout⟩ =
      .ok (left, ⟨rest, stop, layout⟩) := by
  have hends : (Cursor.peek ⟨rest, stop, layout⟩).kind ≠ .op ∨
      Cursor.atBoundary ⟨rest, stop, layout⟩ = true := hr.symm.imp_left fun h => h.1
  rw [operationFrom, run_bind, run_get]
  simp only
  rw [if_pos hends]
  rfl

/-- Precedence climbing: with enough fuel for the tokens, an operand takes up the operators of at
least the level that is asked for. -/
theorem outcome_operation (hr : EndsRow ⟨rest, stop, layout⟩) (n : Nat) :
    (∀ level {ts us e ls}, Operand stop layout (us ++ rest) ts e → Tail stop layout rest us ls →
      8 * (ts ++ us ++ rest).length + 5 ≤ n →
      Outcome stop layout rest level (.operand e) us ls
        ((operation n level).run ⟨ts ++ us ++ rest, stop, layout⟩)) ∧
    (∀ level left {us ls}, Tail stop layout rest us ls → 8 * (us ++ rest).length + 1 ≤ n →
      left.Grouped → (∀ l ∈ ls.head?, ∀ o ∈ left.root?, l.op.Allows .left o) →
      Outcome stop layout rest level left us ls
        ((operationFrom n level left.expr).run ⟨us ++ rest, stop, layout⟩)) := by
  induction n with
  | zero =>
    refine ⟨fun _ _ _ _ _ _ _ hn => ?_, fun _ _ _ _ _ hn => ?_⟩ <;> omega
  | succ n ih =>
    obtain ⟨ihoperation, ihfrom⟩ := ih
    constructor
    · intro level ts us e ls hop hus hn
      simp only [List.length_append] at hn
      have hpos : 0 < ts.length := by
        cases hop <;> simp
      rw [operation, List.append_assoc, run_bind,
        hop.run_operand (hus.separated hr) (by rw [List.length_append]; omega)]
      exact ihfrom level (.operand e) hus (by rw [List.length_append]; omega) trivial
        (by simp [Grouping.root?])
    · intro level left us ls hus hn hleft hallows
      cases hus with
      | nil =>
        rw [List.nil_append, run_operationFrom_end hr]
        exact .stays .nil hleft (by simp)
      | @cons t op ts us e ls ht hop hb hoperand hus =>
        rw [List.cons_append, run_operationFrom ht hop hb]
        -- an operator of a lower level is left to the caller
        by_cases hlevel : op.level < level
        · rw [if_pos hlevel]
          refine .stays (.cons ht hop hb hoperand hus) hleft fun l hl => ?_
          cases hl
          exact hlevel
        · rw [if_neg hlevel]
          -- else its right operand takes all that binds more tightly
          have hright := ihoperation op.rightLevel hoperand hus (by simp at hn ⊢; omega)
          generalize (operation n op.rightLevel).run ⟨ts ++ us ++ rest, stop, layout⟩ = r at hright
          cases hright with
          | chained h =>
            refine .chained fun hall => h ?_
            have happend : Unchained ([op] ++ ls.map (·.op)) := hall
            exact happend.right
          | @groups right taken others us' hls hus' htail hgrouped hfirst hlinks hle hlt =>
            have htaken : right.links = taken := hlinks
            simp only
            rcases run_checkChain htail hr t op with ⟨hrun, hne⟩ | ⟨⟨i, hrun⟩, hc, l, hl, hsame⟩
            · have hnode : (Grouping.node t.pos op left right).Grouped := by
                refine ⟨hleft, hgrouped, fun o ho => hallows _ rfl o ho, fun o ho => ?_⟩
                obtain ⟨x, hx, rfl⟩ := Grouping.exists_link ho
                exact Operator.allows_right (hle x (htaken ▸ hx))
              have hrest := ihfrom level (.node t.pos op left right) htail
                (by have := hus'.length_le; simp at hn ⊢; omega) hnode
                (by rintro l hl o ⟨⟩; exact Operator.allows_left (hlt l hl) (hne l hl))
              rw [hrun]
              exact .joins (Nat.le_of_not_lt hlevel) hls hus'
                ((List.suffix_append ts us).trans (List.suffix_cons t _)) hfirst htaken hle hrest
            · rw [hrun]
              -- an operator that does not chain meets another one of its level
              obtain ⟨others, rfl⟩ : ∃ more, others = l :: more := by
                cases others with
                | nil => cases hl
                | cons x xs => cases hl; exact ⟨xs, rfl⟩
              refine .chained ?_
              rw [hls, List.map_cons, List.map_append, List.map_cons]
              exact Operator.not_unchained hc hsame hle

/-- **Operators are read by their levels.** A row of operands with operators between them is read
just if no two comparisons have only operators that bind tighter between them. It is then read as
the one tree over the same operands and operators in which every operator allows those below it. -/
theorem expr_chain {toks : List Token} {e : Expr} {ls : List Link}
    (h : Chain stop layout rest toks e ls) (hr : EndsRow ⟨rest, stop, layout⟩) :
    ((∃ e' c, expr.run ⟨toks ++ rest, stop, layout⟩ = .ok (e', c)) ↔
      Unchained (ls.map (·.op))) ∧
    (Unchained (ls.map (·.op)) → ∃ t : Grouping,
      (t.Grouped ∧ t.first = e ∧ t.links = ls) ∧
      (∀ t' : Grouping, t'.Grouped → t'.first = e → t'.links = ls → t' = t) ∧
      expr.run ⟨toks ++ rest, stop, layout⟩ = .ok (t.expr, ⟨rest, stop, layout⟩)) := by
  obtain @⟨ts, us, _, _, hfirst, hus⟩ := h
  have hout := (outcome_operation hr (fuel ⟨ts ++ us ++ rest, stop, layout⟩)).1 0 hfirst hus
    (by simp only [fuel]; omega)
  rw [← run_expr] at hout
  generalize expr.run ⟨ts ++ us ++ rest, stop, layout⟩ = r at hout
  cases hout with
  | chained hno =>
    refine ⟨⟨?_, fun h => absurd h hno⟩, fun h => absurd h hno⟩
    rintro ⟨_, _, ⟨⟩⟩
  | @groups t taken others us' hls _ htail ht hfirst hlinks _ hlt =>
    -- no operator has a level below 0
    obtain rfl : others = [] := by
      cases others with
      | nil => rfl
      | cons l ls => exact absurd (hlt l rfl) (Nat.not_lt_zero _)
    cases htail
    rw [List.append_nil] at hls
    subst hls
    have hlinks : t.links = ls := hlinks
    refine ⟨⟨fun _ => hlinks ▸ ht.unchained, fun _ => ⟨_, _, rfl⟩⟩, fun _ => ?_⟩
    refine ⟨t, ⟨ht, hfirst, hlinks⟩, fun t' ht' hfirst' hlinks' => ?_, rfl⟩
    exact Grouping.eq_of_reading ht' ht (hfirst'.trans hfirst.symm) (hlinks'.trans hlinks.symm)

end

/-- `a-b*(c+d)==e` -/
theorem expr_chain_mixed :
    let tok (kind : TokenKind) (text : String) (col : Int) : Token := ⟨kind, text, ⟨1, col⟩, false⟩
    let var (name : String) (col : Int) : Expr := .var ⟨1, col⟩ name
    let inner := [tok .ident "c" 6, tok .op "+" 7, tok .ident "d" 8]
    let sum : Expr := .binary ⟨1, 7⟩ .add (var "c" 6) (var "d" 8)
    let last := tok .op "==" 10 :: ([tok .ident "e" 12] ++ [])
    let product := tok .op "*" 4 :: (tok .lparen "(" 5 :: (inner ++ [tok .rparen ")" 9]) ++ last)
    let toks := [tok .ident "a" 1] ++ tok .op "-" 2 :: ([tok .ident "b" 3] ++ product)
    let ls : List Link :=
      [⟨⟨1, 2⟩, .sub, var "b" 3⟩, ⟨⟨1, 4⟩, .mul, sum⟩, ⟨⟨1, 10⟩, .eq, var "e" 12⟩]
    let stop : Pos := ⟨1, 13⟩
    Chain stop [] [] toks (var "a" 1) ls ∧ EndsRow ⟨[], stop, []⟩ ∧
    (((∃ e c, expr.run ⟨toks ++ [], stop, []⟩ = .ok (e, c)) ↔ Unchained (ls.map (·.op))) ∧
      (Unchained (ls.map (·.op)) → ∃ t : Grouping,
        (t.Grouped ∧ t.first = var "a" 1 ∧ t.links = ls) ∧
        (∀ t' : Grouping, t'.Grouped → t'.first = var "a" 1 → t'.links = ls → t' = t) ∧
        expr.run ⟨toks ++ [], stop, []⟩ = .ok (t.expr, ⟨[], stop, []⟩))) ∧
    expr.run ⟨toks ++ [], stop, []⟩ =
      .ok (.binary ⟨1, 10⟩ .eq (.binary ⟨1, 2⟩ .sub (var "a" 1)
        (.binary ⟨1, 4⟩ .mul (var "b" 3) sum)) (var "e" 12), ⟨[], stop, []⟩) := by
  intro tok var inner sum last product toks ls stop
  have hlast : Tail stop [] [] last [⟨⟨1, 10⟩, .eq, var "e" 12⟩] :=
    .cons rfl rfl rfl (.var rfl) .nil
  have hchain : Chain stop [] [] toks (var "a" 1) ls := by
    refine .mk (.var rfl) (.cons rfl rfl rfl (.var rfl) (.cons rfl rfl rfl ?_ hlast))
    exact .parens rfl rfl rfl
  have hends : EndsRow ⟨[], stop, []⟩ := .inr ⟨by decide, rfl⟩
  exact ⟨hchain, hends, expr_chain hchain hends, rfl⟩

end Grammar

end LazySession

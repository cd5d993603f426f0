import LazySession.Proofs.Indexed.Mirror

/-!
# The grammar by index

Every reader of the grammar by index ends as the reader of cursors does. It comes to the end of its
fuel only if it has less than eight units for each token, and it misses an index only at a qualified name
without a dot.
-/

namespace LazySession

namespace Indexed

open LazySession.Grammar (consumes_params run_params)
open LazySession.Reader (consumes_expect consumes_withColumn)

variable {α β : Type} {all : List Token} {s : State} {c d : Cursor} {n m cost cost' least : Nat}

/-- The fuel is eight units for each token, and `cost`. -/
def Room (n cost : Nat) (c : Cursor) : Prop :=
  8 * c.toks.length + cost ≤ n

theorem Room.after (h : Room (n + 1) cost c) (hlen : d.toks.length + least ≤ c.toks.length)
    (hcost : cost' + 1 ≤ cost + 8 * least) : Room n cost' d := by
  unfold Room at h ⊢
  omega

/-- A qualified name has a dot. -/
def Dotted (t : Token) : Prop :=
  t.kind = .qvar → '.' ∈ t.text.toList

/-- What keeps a reader by index from missing and from running out of fuel. -/
def Ample (all : List Token) (n cost : Nat) (c : Cursor) : Prop :=
  (∀ t ∈ all, Dotted t) ∧ Room n cost c

/-- From where the position stands for the cursor, the reader by index ends as the reader of cursors
with room enough. -/
def Follows (all : List Token) (n cost : Nat) (x : Reader α) (r : Nat → LazySession.Reader α)
    (c : Cursor) : Prop :=
  ∀ m s, Stands all s c → Room m cost c → Mirrors all (Ample all n cost c) x s ((r m).run c)

section
variable {x : Reader α} {r : Nat → LazySession.Reader α}

theorem follows_tooDeep (hcost : 0 < cost) : Follows all 0 cost (tooDeep : Reader α) r c := by
  intro m s _ _
  refine mirrors_tooDeep fun hE => ?_
  have := hE.2
  unfold Room at this
  omega

theorem follows_succ (hcost : 0 < cost)
    (h : ∀ m s, Stands all s c → Room (m + 1) cost c →
      Mirrors all (Ample all (n + 1) cost c) x s ((r (m + 1)).run c)) :
    Follows all (n + 1) cost x r c := by
  intro m s hs hm
  cases m with
  | zero =>
    unfold Room at hm
    omega
  | succ m => exact h m s hs hm

theorem Follows.after (h : Follows all n cost' x r d) (hs : Stands all s d) (hm : Room (m + 1) cost c)
    (hlen : d.toks.length + least ≤ c.toks.length) (hcost : cost' + 1 ≤ cost + 8 * least) :
    Mirrors all (Ample all (n + 1) cost c) x s ((r m).run d) :=
  (h m s hs (hm.after hlen hcost)).mono fun hE => ⟨hE.1, hE.2.after hlen hcost⟩

theorem Follows.here (h : Follows all n cost' x r c) (hs : Stands all s c) (hm : Room (m + 1) cost c)
    (hcost : cost' + 1 ≤ cost) : Mirrors all (Ample all (n + 1) cost c) x s ((r m).run c) :=
  h.after hs hm (show c.toks.length + 0 ≤ c.toks.length from Nat.le_refl _) hcost

end

/-! ## Types -/

structure TypesFollow (all : List Token) (n : Nat) : Prop where
  typeExpr : ∀ c, Follows all n 2 (typeExpr n) Grammar.typeExpr c
  typeArgs : ∀ done c, Follows all n 9 (typeArgs n done) (Grammar.typeArgs · done) c
  typeAtom : ∀ c, Follows all n 1 (typeAtom n) Grammar.typeAtom c

section
variable (h : TypesFollow all n)
include h

theorem TypesFollow.succ_typeExpr (c : Cursor) :
    Follows all (n + 1) 2 (Indexed.typeExpr (n + 1)) Grammar.typeExpr c := by
  refine follows_succ (by omega) fun m s hs hm => ?_
  unfold Indexed.typeExpr Grammar.typeExpr
  refine mirrors_bind ((h.typeAtom c).here hs hm (by omega)) fun head s₁ d hd hs₁ => ?_
  have hlen := (Grammar.consumes_typeAtom m c head d hd).length_le
  refine mirrors_bind ((h.typeArgs [] d).after hs₁ hm hlen (by omega)) fun args s₂ e he hs₂ => ?_
  have hlen' := (Grammar.consumes_typeArgs m [] d args e he).length_le
  refine mirrors_peek hs₂ ?_
  by_cases harrow : e.peek.kind = .arrow
  · have hk : e.peek.kind ≠ .eof := by rw [harrow]; decide
    have hskip := (Cursor.consumed_advance hk).length_le
    simp only [if_pos harrow]
    refine mirrors_skip hs₂ hk fun s₃ hs₃ => ?_
    have hlen'' : e.advance.toks.length + 2 ≤ c.toks.length := by omega
    refine mirrors_bind ((h.typeExpr _).after hs₃ hm hlen'' (by omega)) fun t s₄ e' _ hs₄ => ?_
    exact mirrors_pure hs₄ _
  · simp only [if_neg harrow]
    exact mirrors_pure hs₂ _

theorem TypesFollow.succ_typeArgs (done : List TypeExpr) (c : Cursor) :
    Follows all (n + 1) 9 (Indexed.typeArgs (n + 1) done) (Grammar.typeArgs · done) c := by
  refine follows_succ (by omega) fun m s hs hm => ?_
  unfold Indexed.typeArgs Grammar.typeArgs
  refine mirrors_peek hs ?_
  by_cases hstarts : Grammar.startsType c.peek = true
  · rw [if_pos hstarts, if_pos hstarts]
    refine mirrors_bind ((h.typeAtom c).here hs hm (by omega)) fun t s₁ d hd hs₁ => ?_
    have hlen := (Grammar.consumes_typeAtom m c t d hd).length_le
    exact (h.typeArgs _ d).after hs₁ hm hlen (by omega)
  · rw [if_neg hstarts, if_neg hstarts]
    exact mirrors_pure hs _

theorem TypesFollow.succ_typeAtom (c : Cursor) :
    Follows all (n + 1) 1 (Indexed.typeAtom (n + 1)) Grammar.typeAtom c := by
  refine follows_succ (by omega) fun m s hs hm => ?_
  unfold Indexed.typeAtom Grammar.typeAtom
  refine mirrors_next hs fun s₁ hs₁ => ?_
  cases hk : c.peek.kind with
  | conid | ident => exact mirrors_pure (hs₁ (by rw [hk]; decide)) _
  | lparen =>
    have hk' : c.peek.kind ≠ .eof := by rw [hk]; decide
    have hlen := (Cursor.consumed_advance hk').length_le
    have hs₁ := hs₁ hk'
    refine mirrors_peek hs₁ ?_
    by_cases hunit : c.advance.peek.kind = .rparen
    · simp only [if_pos hunit]
      exact mirrors_skip hs₁ (by rw [hunit]; decide) fun s₂ hs₂ => mirrors_pure hs₂ _
    · simp only [if_neg hunit]
      refine mirrors_bind ((h.typeExpr _).after hs₁ hm hlen (by omega)) fun t s₂ d _ hs₂ => ?_
      refine mirrors_bind (mirrors_expect hs₂ (by decide) _) fun _ s₃ e _ hs₃ => ?_
      exact mirrors_pure hs₃ _
  | _ => exact mirrors_fail _ _ s₁ _

theorem TypesFollow.succ : TypesFollow all (n + 1) :=
  ⟨h.succ_typeExpr, h.succ_typeArgs, h.succ_typeAtom⟩

end

theorem types_follow (all : List Token) (n : Nat) : TypesFollow all n := by
  induction n with
  | zero =>
    exact ⟨fun _ => follows_tooDeep (by omega), fun _ _ => follows_tooDeep (by omega),
      fun _ => follows_tooDeep (by omega)⟩
  | succ n ih => exact ih.succ

/-! ## Expressions -/

structure Following (all : List Token) (n : Nat) : Prop where
  operation : ∀ level c, Follows all n 4 (operation n level) (Grammar.operation · level) c
  operationFrom : ∀ level left c,
    Follows all n 9 (operationFrom n level left) (Grammar.operationFrom · level left) c
  operand : ∀ c, Follows all n 3 (operand n) Grammar.operand c
  application : ∀ c, Follows all n 2 (application n) Grammar.application c
  arguments : ∀ done c, Follows all n 9 (arguments n done) (Grammar.arguments · done) c
  atom : ∀ c, Follows all n 1 (atom n) Grammar.atom c
  parenthesized : ∀ t c, Follows all n 8 (parenthesized n t) (Grammar.parenthesized · t) c
  lambda : ∀ c : Cursor, c.peek.kind ≠ .eof → Follows all n 2 (lambda n) Grammar.lambda c
  cond : ∀ c : Cursor, c.peek.kind ≠ .eof → Follows all n 2 (cond n) Grammar.cond c
  letIn : ∀ c : Cursor, c.peek.kind ≠ .eof → Follows all n 2 (letIn n) Grammar.letIn c
  bindings : ∀ col done c, Follows all n 9 (bindings n col done) (Grammar.bindings · col done) c
  binding : ∀ strict c, Follows all n 8 (binding n strict) (Grammar.binding · strict) c

theorem following_zero (all : List Token) : Following all 0 := by
  constructor <;> intros <;> exact follows_tooDeep (by omega)

section
variable (h : Following all n)
include h

theorem Following.succ_operation (level : Nat) (c : Cursor) :
    Follows all (n + 1) 4 (Indexed.operation (n + 1) level) (Grammar.operation · level) c := by
  refine follows_succ (by omega) fun m s hs hm => ?_
  unfold Indexed.operation Grammar.operation
  refine mirrors_bind ((h.operand c).here hs hm (by omega)) fun left s₁ d hd hs₁ => ?_
  have hlen := ((Grammar.consuming m).operand c left d hd).length_le
  exact (h.operationFrom level left d).after hs₁ hm hlen (by omega)

theorem Following.succ_operationFrom (level : Nat) (left : Expr) (c : Cursor) :
    Follows all (n + 1) 9 (Indexed.operationFrom (n + 1) level left)
      (Grammar.operationFrom · level left) c := by
  refine follows_succ (by omega) fun m s hs hm => ?_
  unfold Indexed.operationFrom Grammar.operationFrom
  refine mirrors_step hs.run_peek (mirrors_step (hs.run_goesOn _) ?_)
  change Mirrors all _ _ s
    (StateT.run (if c.peek.kind ≠ .op ∨ c.atBoundary = true then _ else _) c)
  by_cases hgo : c.peek.kind ≠ .op ∨ c.atBoundary = true
  · rw [if_pos hgo, if_neg (by simpa [imp_iff_not_or] using hgo)]
    exact mirrors_pure hs left
  · rw [if_neg hgo, if_pos (by simpa using hgo)]
    cases Operator.ofText? c.peek.text with
    | none => exact mirrors_fail _ _ s c
    | some op =>
      by_cases hlevel : op.level < level
      · simp only [if_pos hlevel]
        exact mirrors_pure hs left
      · have hk : c.peek.kind ≠ .eof := fun he => hgo (.inl (by rw [he]; decide))
        have hlen := (Cursor.consumed_advance hk).length_le
        simp only [if_neg hlevel]
        refine mirrors_skip hs hk fun s₁ hs₁ => ?_
        refine mirrors_bind ((h.operation op.rightLevel _).after hs₁ hm hlen (by omega))
          fun right s₂ d hd hs₂ => ?_
        have hlen' := ((Grammar.consuming m).operation _ _ right d hd).length_le
        refine mirrors_bind (mirrors_checkChain hs₂ _ op) fun _ s₃ e he hs₃ => ?_
        have hlen'' := (Grammar.consumes_checkChain _ op d _ e he).length_le
        have hall : e.toks.length + 2 ≤ c.toks.length := by omega
        exact (h.operationFrom _ _ e).after hs₃ hm hall (by omega)

theorem Following.succ_operand (c : Cursor) :
    Follows all (n + 1) 3 (Indexed.operand (n + 1)) Grammar.operand c := by
  refine follows_succ (by omega) fun m s hs hm => ?_
  unfold Indexed.operand Grammar.operand
  refine mirrors_peek hs ?_
  cases hk : c.peek.kind with
  | backslash => exact (h.lambda c (by rw [hk]; decide)).here hs hm (by omega)
  | kwLet => exact (h.letIn c (by rw [hk]; decide)).here hs hm (by omega)
  | kwIf => exact (h.cond c (by rw [hk]; decide)).here hs hm (by omega)
  | op =>
    simp only
    by_cases hminus : c.peek.text = "-"
    · have hk' : c.peek.kind ≠ .eof := by rw [hk]; decide
      have hlen := (Cursor.consumed_advance hk').length_le
      rw [if_pos hminus, if_pos hminus]
      refine mirrors_skip hs hk' fun s₁ hs₁ => ?_
      refine mirrors_bind ((h.operation 7 _).after hs₁ hm hlen (by omega)) fun e s₂ d _ hs₂ => ?_
      exact mirrors_pure hs₂ _
    · rw [if_neg hminus, if_neg hminus]
      exact (h.application c).here hs hm (by omega)
  | _ => exact (h.application c).here hs hm (by omega)

theorem Following.succ_application (c : Cursor) :
    Follows all (n + 1) 2 (Indexed.application (n + 1)) Grammar.application c := by
  refine follows_succ (by omega) fun m s hs hm => ?_
  unfold Indexed.application Grammar.application
  refine mirrors_bind ((h.atom c).here hs hm (by omega)) fun fn s₁ d hd hs₁ => ?_
  have hlen := ((Grammar.consuming m).atom c fn d hd).length_le
  refine mirrors_bind ((h.arguments [] d).after hs₁ hm hlen (by omega)) fun args s₂ e _ hs₂ => ?_
  exact mirrors_pure hs₂ _

theorem Following.succ_arguments (done : List Expr) (c : Cursor) :
    Follows all (n + 1) 9 (Indexed.arguments (n + 1) done) (Grammar.arguments · done) c := by
  refine follows_succ (by omega) fun m s hs hm => ?_
  unfold Indexed.arguments Grammar.arguments
  refine mirrors_step (hs.run_goesOn _) ?_
  change Mirrors all _ _ s
    (StateT.run (if Grammar.startsAtom c.peek = true ∧ ¬ c.atBoundary = true then _ else _) c)
  by_cases hgo : Grammar.startsAtom c.peek = true ∧ ¬ c.atBoundary = true
  · rw [if_pos (by simpa using hgo), if_pos hgo]
    refine mirrors_bind ((h.atom c).here hs hm (by omega)) fun a s₁ d hd hs₁ => ?_
    have hlen := ((Grammar.consuming m).atom c a d hd).length_le
    exact (h.arguments _ d).after hs₁ hm hlen (by omega)
  · rw [if_neg (by simpa using hgo), if_neg hgo]
    exact mirrors_pure hs _

theorem Following.succ_atom (c : Cursor) :
    Follows all (n + 1) 1 (Indexed.atom (n + 1)) Grammar.atom c := by
  refine follows_succ (by omega) fun m s hs hm => ?_
  unfold Indexed.atom Grammar.atom
  refine mirrors_peek hs ?_
  cases hk : c.peek.kind with
  | ident | string =>
    exact mirrors_skip hs (by rw [hk]; decide) fun s₁ hs₁ => mirrors_pure hs₁ _
  | qvar =>
    refine mirrors_skip hs (by rw [hk]; decide) fun s₁ hs₁ => ?_
    -- only here is it needed that the token has a dot
    refine mirrors_cutQualified (fun hE => hE.1 _ hs.mem_peek hk) ?_
    exact mirrors_pure hs₁ _
  | conid =>
    refine mirrors_skip hs (by rw [hk]; decide) fun s₁ hs₁ => ?_
    by_cases htrue : c.peek.text = "True"
    · simp only [htrue]
      exact mirrors_pure hs₁ _
    · by_cases hfalse : c.peek.text = "False"
      · simp only [hfalse]
        exact mirrors_pure hs₁ _
      · simp only
        exact mirrors_fail _ _ _ _
  | int =>
    refine mirrors_skip hs (by rw [hk]; decide) fun s₁ hs₁ => ?_
    cases Text.unsigned? c.peek.text.toList with
    | some v => exact mirrors_pure hs₁ _
    | none => exact mirrors_fail _ _ _ _
  | lparen =>
    have hk' : c.peek.kind ≠ .eof := by rw [hk]; decide
    have hlen := (Cursor.consumed_advance hk').length_le
    refine mirrors_skip hs hk' fun s₁ hs₁ => ?_
    exact (h.parenthesized _ _).after hs₁ hm hlen (by omega)
  | _ => exact mirrors_fail _ _ s c

theorem Following.succ_parenthesized (t : Token) (c : Cursor) :
    Follows all (n + 1) 8 (Indexed.parenthesized (n + 1) t) (Grammar.parenthesized · t) c := by
  refine follows_succ (by omega) fun m s hs hm => ?_
  unfold Indexed.parenthesized Grammar.parenthesized
  refine mirrors_step hs.run_peek ?_
  change Mirrors all _ _ s (StateT.run (if c.peek.kind = .rparen then _ else if c.peek.kind = .op ∧
    c.peekSecond.kind = .rparen then _ else _) c)
  by_cases hunit : c.peek.kind = .rparen
  · rw [if_pos hunit, if_pos hunit]
    exact mirrors_skip hs (by rw [hunit]; decide) fun s₁ hs₁ => mirrors_pure hs₁ _
  · rw [if_neg hunit, if_neg hunit]
    refine mirrors_step hs.run_peekSecond ?_
    by_cases hop : c.peek.kind = .op ∧ c.peekSecond.kind = .rparen
    · rw [if_pos hop, if_pos hop]
      cases Operator.ofText? c.peek.text with
      | none => exact mirrors_fail _ _ s c
      | some op =>
        refine mirrors_skip hs (by rw [hop.1]; decide) fun s₁ hs₁ => ?_
        have hnext : c.advance.peek = c.peekSecond := rfl
        refine mirrors_skip hs₁ (by rw [hnext, hop.2]; decide) fun s₂ hs₂ => ?_
        exact mirrors_pure hs₂ _
    · rw [if_neg hop, if_neg hop]
      -- inside the parentheses the columns are others, but the tokens are the same
      have hsame : ({ c with layout := 0 :: c.layout } : Cursor).toks.length + 0 ≤ c.toks.length :=
        Nat.le_refl _
      refine mirrors_bind (mirrors_withColumn ((Grammar.consuming m).operation _ _)
        ((h.operation 0 _).after (hs.push 0) hm hsame (by omega))) fun e s₁ d _ hs₁ => ?_
      refine mirrors_bind (mirrors_expect hs₁ (by decide) _) fun _ s₂ d' _ hs₂ => ?_
      exact mirrors_pure hs₂ _

theorem Following.succ_lambda {c : Cursor} (hk : c.peek.kind ≠ .eof) :
    Follows all (n + 1) 2 (Indexed.lambda (n + 1)) Grammar.lambda c := by
  refine follows_succ (by omega) fun m s hs hm => ?_
  unfold Indexed.lambda Grammar.lambda
  have hlen := (Cursor.consumed_advance hk).length_le
  refine mirrors_next hs fun s₁ hs₁ => ?_
  have hs₁ := hs₁ hk
  refine mirrors_bind ?_ fun ps s₂ d hd hs₂ => ?_
  · rw [run_params]
    exact mirrors_params n [] hs₁ fun hE => by have := hE.2; unfold Room at this; omega
  · have hlen' := (consumes_params _ ps d hd).length_le
    cases ps with
    | nil => exact mirrors_peek hs₂ (mirrors_fail _ _ _ _)
    | cons p ps =>
      refine mirrors_bind (mirrors_expect hs₂ (by decide) _) fun _ s₃ e he hs₃ => ?_
      have hlen'' := (consumes_expect (by decide) _ d _ e he).length_le
      have hall : e.toks.length + 2 ≤ c.toks.length := by omega
      refine mirrors_bind ((h.operation 0 e).after hs₃ hm hall (by omega)) fun _ s₄ _ _ hs₄ => ?_
      exact mirrors_pure hs₄ _

theorem Following.succ_cond {c : Cursor} (hk : c.peek.kind ≠ .eof) :
    Follows all (n + 1) 2 (Indexed.cond (n + 1)) Grammar.cond c := by
  refine follows_succ (by omega) fun m s hs hm => ?_
  unfold Indexed.cond Grammar.cond
  have hlen := (Cursor.consumed_advance hk).length_le
  refine mirrors_next hs fun s₁ hs₁ => ?_
  refine mirrors_bind ((h.operation 0 _).after (hs₁ hk) hm hlen (by omega)) fun test s₂ d hd hs₂ => ?_
  have hlen₁ := ((Grammar.consuming m).operation _ _ test d hd).length_le
  refine mirrors_bind (mirrors_expect hs₂ (by decide) _) fun _ s₃ d₁ hd₁ hs₃ => ?_
  have hlen₂ := (consumes_expect (by decide) _ d _ d₁ hd₁).length_le
  -- every part starts behind at least two more tokens than the one before
  have hyes : d₁.toks.length + 3 ≤ c.toks.length := by omega
  refine mirrors_bind ((h.operation 0 d₁).after hs₃ hm hyes (by omega)) fun yes s₄ d₂ hd₂ hs₄ => ?_
  have hlen₃ := ((Grammar.consuming m).operation _ _ yes d₂ hd₂).length_le
  refine mirrors_bind (mirrors_expect hs₄ (by decide) _) fun _ s₅ d₃ hd₃ hs₅ => ?_
  have hlen₄ := (consumes_expect (by decide) _ d₂ _ d₃ hd₃).length_le
  have hno : d₃.toks.length + 5 ≤ c.toks.length := by omega
  refine mirrors_bind ((h.operation 0 d₃).after hs₅ hm hno (by omega)) fun _ s₆ _ _ hs₆ => ?_
  exact mirrors_pure hs₆ _

theorem Following.succ_letIn {c : Cursor} (hk : c.peek.kind ≠ .eof) :
    Follows all (n + 1) 2 (Indexed.letIn (n + 1)) Grammar.letIn c := by
  refine follows_succ (by omega) fun m s hs hm => ?_
  unfold Indexed.letIn Grammar.letIn
  have hlen := (Cursor.consumed_advance hk).length_le
  refine mirrors_next hs fun s₁ hs₁ => mirrors_peek (hs₁ hk) ?_
  by_cases hident : c.advance.peek.kind ≠ .ident
  · rw [if_pos hident, if_pos hident]
    exact mirrors_fail _ _ _ _
  · rw [if_neg hident, if_neg hident]
    -- the block gives its column back, so that the one taken off is its own
    have hbinds := (Grammar.consuming m).bindings c.advance.peek.pos.col []
      { c.advance with layout := c.advance.peek.pos.col :: c.advance.layout }
    refine mirrors_bind (mirrors_withColumn hbinds
      ((h.bindings _ [] _).after ((hs₁ hk).push _) hm hlen (by omega))) fun binds s₂ d hd hs₂ => ?_
    have hlen₁ := (consumes_withColumn hbinds binds d hd).length_le
    refine mirrors_bind (mirrors_expect hs₂ (by decide) _) fun _ s₃ e he hs₃ => ?_
    have hlen₂ := (consumes_expect (by decide) _ d _ e he).length_le
    have hall : e.toks.length + 3 ≤ c.toks.length := by omega
    refine mirrors_bind ((h.operation 0 e).after hs₃ hm hall (by omega)) fun _ s₄ _ _ hs₄ => ?_
    exact mirrors_pure hs₄ _

theorem Following.succ_bindings (col : Int) (done : List Binding) (c : Cursor) :
    Follows all (n + 1) 9 (Indexed.bindings (n + 1) col done) (Grammar.bindings · col done) c := by
  refine follows_succ (by omega) fun m s hs hm => ?_
  unfold Indexed.bindings Grammar.bindings
  refine mirrors_bind ((h.binding false c).here hs hm (by omega)) fun b s₁ d hd hs₁ => ?_
  have hlen := ((Grammar.consuming m).binding false c b d hd).length_le
  refine mirrors_peek hs₁ ?_
  by_cases hsemi : d.peek.kind = .semi
  · rw [if_pos hsemi, if_pos hsemi]
    have hk : d.peek.kind ≠ .eof := by rw [hsemi]; decide
    have hlen' := (Cursor.consumed_advance hk).length_le
    have hall : d.advance.toks.length + 2 ≤ c.toks.length := by omega
    exact mirrors_skip hs₁ hk fun s₂ hs₂ => (h.bindings _ _ _).after hs₂ hm hall (by omega)
  · rw [if_neg hsemi, if_neg hsemi]
    by_cases hin : d.peek.kind = .kwIn
    · rw [if_pos hin, if_pos hin]
      exact mirrors_pure hs₁ _
    · rw [if_neg hin, if_neg hin]
      by_cases hnew : d.peek.kind = .ident ∧ d.peek.startsLine = true ∧ d.peek.pos.col = col
      · rw [if_pos hnew, if_pos hnew]
        exact (h.bindings _ _ d).after hs₁ hm hlen (by omega)
      · rw [if_neg hnew, if_neg hnew]
        exact mirrors_fail _ _ _ _

theorem Following.succ_binding (strict : Bool) (c : Cursor) :
    Follows all (n + 1) 8 (Indexed.binding (n + 1) strict) (Grammar.binding · strict) c := by
  refine follows_succ (by omega) fun m s hs hm => ?_
  unfold Indexed.binding Grammar.binding
  refine mirrors_bind (mirrors_expect hs (by decide) _) fun t s₁ d hd hs₁ => ?_
  have hlen := (consumes_expect (by decide) _ c t d hd).length_le
  refine mirrors_bind ?_ fun ps s₂ d₁ hd₁ hs₂ => ?_
  · rw [run_params]
    exact mirrors_params n [] hs₁ fun hE => by have := hE.2; unfold Room at this; omega
  · have hlen₁ := (consumes_params _ ps d₁ hd₁).length_le
    refine mirrors_bind (mirrors_expect hs₂ (by decide) _) fun eq s₃ d₂ hd₂ hs₃ => ?_
    have hlen₂ := (consumes_expect (by decide) _ d₁ eq d₂ hd₂).length_le
    by_cases hstrict : strict = true ∧ ps ≠ []
    · rw [if_pos hstrict, if_pos hstrict]
      exact mirrors_fail _ _ _ _
    · rw [if_neg hstrict, if_neg hstrict]
      have hall : d₂.toks.length + 2 ≤ c.toks.length := by omega
      refine mirrors_bind ((h.operation 0 d₂).after hs₃ hm hall (by omega)) fun _ s₄ _ _ hs₄ => ?_
      exact mirrors_pure hs₄ _

theorem Following.succ : Following all (n + 1) where
  operation := h.succ_operation
  operationFrom := h.succ_operationFrom
  operand := h.succ_operand
  application := h.succ_application
  arguments := h.succ_arguments
  atom := h.succ_atom
  parenthesized := h.succ_parenthesized
  lambda _ := h.succ_lambda
  cond _ := h.succ_cond
  letIn _ := h.succ_letIn
  bindings := h.succ_bindings
  binding := h.succ_binding

end

theorem following (all : List Token) (n : Nat) : Following all n := by
  induction n with
  | zero => exact following_zero all
  | succ n ih => exact ih.succ

/-! ## With the fuel that the readers of cursors take -/

theorem room_fuel (hlen : d.toks.length ≤ c.toks.length) (hcost : cost ≤ 8) :
    Room (Grammar.fuel c) cost d := by
  unfold Room Grammar.fuel
  omega

theorem Follows.full {x : Reader α} {r : Nat → LazySession.Reader α} (h : Follows all n cost x r d)
    (hs : Stands all s d) (hm : Room m cost d) (hlen : d.toks.length ≤ c.toks.length)
    (hcost : cost ≤ 8) : Mirrors all (Ample all n 8 c) x s ((r m).run d) := by
  refine (h m s hs hm).mono fun hE => ⟨hE.1, ?_⟩
  have := hE.2
  unfold Room at this ⊢
  omega

theorem mirrors_expr (hs : Stands all s c) :
    Mirrors all (Ample all n 8 c) (expr n) s (Grammar.expr.run c) := by
  have hm : Room (Grammar.fuel c) 4 c := room_fuel (Nat.le_refl _) (by omega)
  unfold expr Grammar.expr
  exact mirrors_get (((following all n).operation 0 c).full hs hm (Nat.le_refl _) (by omega))

/-! ## Declarations -/

theorem follows_signatureNames (n : Nat) (done : List String) (c : Cursor) :
    Follows all n 1 (signatureNames n done) (Grammar.signatureNames · done) c := by
  induction n generalizing done c with
  | zero => exact follows_tooDeep (by omega)
  | succ n ih =>
    refine follows_succ (by omega) fun m s hs hm => ?_
    unfold signatureNames Grammar.signatureNames
    refine mirrors_peek hs ?_
    by_cases hcomma : c.peek.kind = .comma
    · have hk : c.peek.kind ≠ .eof := by rw [hcomma]; decide
      have hlen := (Cursor.consumed_advance hk).length_le
      simp only [if_pos hcomma]
      refine mirrors_skip hs hk fun s₁ hs₁ => ?_
      refine mirrors_bind (mirrors_expect hs₁ (by decide) _) fun t s₂ d hd hs₂ => ?_
      have hlen' := (consumes_expect (by decide) _ _ t d hd).length_le
      have hall : d.toks.length + 2 ≤ c.toks.length := by omega
      exact (ih _ d).after hs₂ hm hall (by omega)
    · simp only [if_neg hcomma]
      exact mirrors_pure hs _

theorem mirrors_signature (hs : Stands all s c) :
    Mirrors all (Ample all n 8 c) (signature n) s (Grammar.signature.run c) := by
  unfold signature Grammar.signature
  refine mirrors_bind (mirrors_expect hs (by decide) _) fun t s₁ d hd hs₁ => ?_
  have hlen := (consumes_expect (by decide) _ c t d hd).length_le
  refine mirrors_get ?_
  refine mirrors_bind ((follows_signatureNames n _ d).full hs₁ (room_fuel (Nat.le_refl _) (by omega))
    (by omega) (by omega)) fun names s₂ d₁ hd₁ hs₂ => ?_
  have hlen₁ := (Grammar.consumes_signatureNames _ _ d names d₁ hd₁).length_le
  refine mirrors_bind (mirrors_expect hs₂ (by decide) _) fun _ s₃ d₂ hd₂ hs₃ => ?_
  have hlen₂ := (consumes_expect (by decide) _ d₁ _ d₂ hd₂).length_le
  refine mirrors_get ?_
  refine mirrors_bind (((types_follow all n).typeExpr d₂).full hs₃
    (room_fuel (Nat.le_refl _) (by omega)) (by omega) (by omega)) fun type s₄ _ _ hs₄ => ?_
  exact mirrors_pure hs₄ _

theorem mirrors_decl (hs : Stands all s c) :
    Mirrors all (Ample all n 8 c) (decl n) s (Grammar.decl.run c) := by
  unfold decl Grammar.decl
  refine mirrors_step hs.run_peek (mirrors_get ?_)
  cases hk : c.peek.kind with
  | kwImport =>
    simp only [hk]
    refine mirrors_skip hs (by rw [hk]; decide) fun s₁ hs₁ => ?_
    refine mirrors_bind (mirrors_expect hs₁ (by decide) _) fun _ s₂ _ _ hs₂ => ?_
    exact mirrors_pure hs₂ _
  | bang =>
    have hk' : c.peek.kind ≠ .eof := by rw [hk]; decide
    have hlen := (Cursor.consumed_advance hk').length_le
    simp only [hk]
    refine mirrors_skip hs hk' fun s₁ hs₁ => ?_
    refine mirrors_bind (((following all n).binding true c.advance).full hs₁
      (room_fuel (by omega) (by omega)) (by omega) (by omega)) fun b s₂ _ _ hs₂ => ?_
    exact mirrors_pure hs₂ _
  | ident =>
    simp only [hk]
    refine mirrors_step hs.run_peekSecond ?_
    by_cases hsign : c.peekSecond.kind = .comma ∨ c.peekSecond.kind = .doubleColon
    · rw [if_pos hsign, if_pos hsign]
      exact mirrors_signature hs
    · rw [if_neg hsign, if_neg hsign]
      refine mirrors_bind (((following all n).binding false c).full hs
        (room_fuel (Nat.le_refl _) (by omega)) (by omega) (by omega)) fun b s₁ _ _ hs₁ => ?_
      exact mirrors_pure hs₁ _
  | _ =>
    simp only [hk]
    exact mirrors_fail _ _ s c

theorem mirrors_moduleHeader {E : Prop} (hs : Stands all s c) :
    Mirrors all E moduleHeader s (Grammar.moduleHeader.run c) := by
  unfold moduleHeader Grammar.moduleHeader
  refine mirrors_bind (mirrors_expect hs (by decide) _) fun t s₁ _ _ hs₁ => ?_
  refine mirrors_bind (mirrors_expect hs₁ (by decide) _) fun name s₂ _ _ hs₂ => ?_
  refine mirrors_bind (mirrors_expect hs₂ (by decide) _) fun _ s₃ _ _ hs₃ => ?_
  exact mirrors_pure hs₃ _

end Indexed

end LazySession

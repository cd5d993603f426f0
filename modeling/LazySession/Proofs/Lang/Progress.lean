import LazySession.Proofs.Lang.Sufficiency

/-!
# Readers move on

A reader that succeeds has taken tokens from the front of its cursor, none of which stands for the
end, and leaves the columns of the blocks around as it found them: `Grammar.consumes_operation`,
`Grammar.consumes_typeExpr` and their companions. This holds for all tokens, all columns and any amount
of fuel.
-/

namespace LazySession

/-- The second cursor is the first one behind at least `least` of its tokens. -/
structure Cursor.Consumed (least : Nat) (c d : Cursor) : Prop where
  toks : ∃ taken, c.toks = taken ++ d.toks ∧ least ≤ taken.length ∧ ∀ t ∈ taken, t.kind ≠ .eof
  stop : d.stop = c.stop
  layout : d.layout = c.layout

namespace Cursor

variable {least least' : Nat} {c d e : Cursor}

theorem Consumed.refl (c : Cursor) : Consumed 0 c c := ⟨⟨[], rfl, Nat.le_refl _, by simp⟩, rfl, rfl⟩

theorem Consumed.mono (h : Consumed least c d) (hle : least' ≤ least) : Consumed least' c d := by
  obtain ⟨⟨taken, htoks, hlen, hkind⟩, hstop, hlayout⟩ := h
  exact ⟨⟨taken, htoks, Nat.le_trans hle hlen, hkind⟩, hstop, hlayout⟩

theorem Consumed.trans (h : Consumed least c d) (h' : Consumed least' d e) :
    Consumed (least' + least) c e := by
  obtain ⟨⟨taken, htoks, hlen, hkind⟩, hstop, hlayout⟩ := h
  obtain ⟨⟨taken', htoks', hlen', hkind'⟩, hstop', hlayout'⟩ := h'
  refine ⟨⟨taken ++ taken', ?_, ?_, ?_⟩, hstop'.trans hstop, hlayout'.trans hlayout⟩
  · rw [htoks, htoks', List.append_assoc]
  · rw [List.length_append]
    omega
  · exact List.forall_mem_append.mpr ⟨hkind, hkind'⟩

theorem Consumed.length_le (h : Consumed least c d) : d.toks.length + least ≤ c.toks.length := by
  obtain ⟨taken, htoks, hlen, -⟩ := h.toks
  rw [htoks, List.length_append]
  omega

theorem consumed_advance (h : c.peek.kind ≠ .eof) : Consumed 1 c c.advance :=
  ⟨⟨[c.peek], Reader.toks_eq_advance h, Nat.le_refl _, by simpa using h⟩, rfl, rfl⟩

end Cursor

namespace Reader

variable {α β : Type} {least : Nat} {c : Cursor}

/-- From the cursor, the reader fails or consumes tokens. -/
def Consumes (least : Nat) (r : Reader α) (c : Cursor) : Prop :=
  ∀ a d, r.run c = .ok (a, d) → c.Consumed least d

theorem Consumes.any {r : Reader α} (h : Consumes least r c) : Consumes 0 r c :=
  fun a d hr => (h a d hr).mono (Nat.zero_le _)

theorem consumes_pure (a : α) (c : Cursor) : Consumes 0 (pure a : Reader α) c := by
  intro b d hr
  cases hr
  exact .refl c

theorem consumes_fail (least : Nat) (t : Token) (fault : SyntaxFault) (c : Cursor) :
    Consumes least (fail t fault : Reader α) c := by
  intro a d hr
  cases hr

theorem consumes_bind {r : Reader α} {f : α → Reader β} (hr : Consumes least r c)
    (hf : ∀ a d, r.run c = .ok (a, d) → Consumes 0 (f a) d) : Consumes least (r >>= f) c := by
  intro b e h
  obtain ⟨a, d, ha, hb⟩ := bind_ok h
  exact ((hr a d ha).trans (hf a d ha b e hb)).mono (Nat.le_add_left _ _)

theorem consumes_seq {r : Reader α} {f : α → Reader β} (hr : Consumes least r c)
    (hf : ∀ a d, r.run c = .ok (a, d) → Consumes 0 (f a) d) : Consumes 0 (r >>= f) c :=
  (consumes_bind hr hf).any

theorem consumes_get {f : Cursor → Reader β} (h : Consumes least (f c) c) :
    Consumes least (get >>= f) c := h

theorem consumes_peek {f : Token → Reader β} (h : Consumes least (f c.peek) c) :
    Consumes least (peek >>= f) c := h

theorem consumes_skip {f : Unit → Reader β} (hk : c.peek.kind ≠ .eof)
    (h : Consumes 0 (f ()) c.advance) : Consumes 1 (skip >>= f) c :=
  fun b d hr => ((Cursor.consumed_advance hk).trans (h b d hr)).mono (Nat.le_add_left _ _)

theorem consumes_next {f : Token → Reader β} (hk : c.peek.kind ≠ .eof)
    (h : Consumes 0 (f c.peek) c.advance) : Consumes 1 (next >>= f) c :=
  fun b d hr => ((Cursor.consumed_advance hk).trans (h b d hr)).mono (Nat.le_add_left _ _)

theorem consumes_expect {kind : TokenKind} (hk : kind ≠ .eof) (what : String) (c : Cursor) :
    Consumes 1 (expect kind what) c := by
  intro t d h
  obtain ⟨u, c₁, hu, h⟩ := bind_ok h
  cases hu
  split at h
  · rename_i hkind
    cases h
    exact Cursor.consumed_advance (by rw [hkind]; exact hk)
  · cases h

theorem consumes_withColumn {r : Reader α} {col : Int}
    (h : Consumes least r { c with layout := col :: c.layout }) :
    Consumes least (withColumn col r) c := by
  intro a d hr
  obtain ⟨_, c₁, hpush, hr⟩ := bind_ok hr
  cases hpush
  obtain ⟨b, c₂, hb, hr⟩ := bind_ok hr
  obtain ⟨_, c₃, hpop, hr⟩ := bind_ok hr
  cases hpop
  cases hr
  obtain ⟨htoks, hstop, hlayout⟩ := h a c₂ hb
  exact ⟨htoks, hstop, congrArg List.tail hlayout⟩

end Reader

namespace Grammar

open Reader

theorem paramsFrom_eq (done : List Param) (ts : List Token) :
    ∃ taken, ts = taken ++ (paramsFrom done ts).2 ∧ ∀ t ∈ taken, t.kind ≠ .eof := by
  fun_induction paramsFrom done ts with
  | case2 done t ts hk ih =>
    obtain ⟨taken, he, hkind⟩ := ih
    exact ⟨t :: taken, by rw [List.cons_append, ← he],
      List.forall_mem_cons.mpr ⟨by rw [hk]; decide, hkind⟩⟩
  | case4 done t hk u us h ih =>
    obtain ⟨taken, he, hkind⟩ := ih
    refine ⟨t :: u :: taken, by rw [List.cons_append, List.cons_append, ← he], ?_⟩
    exact List.forall_mem_cons.mpr ⟨by rw [h.1]; decide,
      List.forall_mem_cons.mpr ⟨by rw [h.2]; decide, hkind⟩⟩
  | _ => exact ⟨[], rfl, by simp⟩

theorem consumes_params (c : Cursor) : Consumes 0 params c := by
  intro ps d h
  rw [run_params] at h
  cases h
  obtain ⟨taken, he, hkind⟩ := paramsFrom_eq [] c.toks
  exact ⟨⟨taken, he, Nat.zero_le _, hkind⟩, rfl, rfl⟩

theorem consumes_exhausted {α : Type} (least : Nat) (c : Cursor) :
    Consumes least (exhausted : Reader α) c :=
  fun _ _ h => absurd h (exhausted_fails c)

theorem consumes_checkChain (t : Token) (op : Operator) (c : Cursor) :
    Consumes 0 (checkChain t op) c := by
  refine consumes_get ?_
  simp only
  split
  · split
    · split
      · exact consumes_fail _ _ _ _
      · exact consumes_pure _ _
    · exact consumes_pure _ _
  · exact consumes_pure _ _

/-! ## Types -/

theorem consumes_types (n : Nat) :
    (∀ c, Consumes 1 (typeExpr n) c) ∧ (∀ done c, Consumes 0 (typeArgs n done) c) ∧
      ∀ c, Consumes 1 (typeAtom n) c := by
  induction n with
  | zero =>
    exact ⟨consumes_exhausted 1, fun _ => consumes_exhausted 0, consumes_exhausted 1⟩
  | succ n ih =>
    obtain ⟨hexpr, hargs, hatom⟩ := ih
    refine ⟨fun c => ?_, fun done c => ?_, fun c => ?_⟩
    · unfold typeExpr
      refine consumes_bind (hatom c) fun head d _ => ?_
      refine consumes_seq (hargs [] d) fun args d _ => consumes_peek ?_
      by_cases harrow : d.peek.kind = .arrow
      · simp only [if_pos harrow]
        refine (consumes_skip (by rw [harrow]; decide) ?_).any
        exact consumes_seq (hexpr _) fun _ _ _ => consumes_pure _ _
      · simp only [if_neg harrow]
        exact consumes_pure _ _
    · unfold typeArgs
      refine consumes_peek ?_
      split
      · exact consumes_seq (hatom c) fun _ _ _ => hargs _ _
      · exact consumes_pure _ _
    · unfold typeAtom
      cases hk : c.peek.kind with
      | conid =>
        refine consumes_next (by rw [hk]; decide) ?_
        simp only [hk]
        exact consumes_pure _ _
      | ident =>
        refine consumes_next (by rw [hk]; decide) ?_
        simp only [hk]
        exact consumes_pure _ _
      | lparen =>
        refine consumes_next (by rw [hk]; decide) ?_
        simp only [hk]
        refine consumes_peek ?_
        by_cases hunit : c.advance.peek.kind = .rparen
        · simp only [if_pos hunit]
          exact (consumes_skip (by rw [hunit]; decide)
            (consumes_pure (TypeExpr.unit _) _)).any
        · simp only [if_neg hunit]
          refine consumes_seq (hexpr _) fun _ d _ => ?_
          exact consumes_seq (consumes_expect (by decide) _ d) fun _ _ _ => consumes_pure _ _
      | _ =>
        intro t d h
        obtain ⟨u, c₁, hu, h⟩ := bind_ok h
        cases hu
        simp only [hk] at h
        cases h

theorem consumes_typeExpr (n : Nat) (c : Cursor) : Consumes 1 (typeExpr n) c :=
  (consumes_types n).1 c

theorem consumes_typeArgs (n : Nat) (done : List TypeExpr) (c : Cursor) :
    Consumes 0 (typeArgs n done) c :=
  (consumes_types n).2.1 done c

theorem consumes_typeAtom (n : Nat) (c : Cursor) : Consumes 1 (typeAtom n) c :=
  (consumes_types n).2.2 c

/-! ## Expressions -/

/-- What the readers of expressions consume with `n` units of fuel. -/
structure Consuming (n : Nat) : Prop where
  operation : ∀ level c, Consumes 1 (operation n level) c
  operationFrom : ∀ level left c, Consumes 0 (operationFrom n level left) c
  operand : ∀ c, Consumes 1 (operand n) c
  application : ∀ c, Consumes 1 (application n) c
  arguments : ∀ done c, Consumes 0 (arguments n done) c
  atom : ∀ c, Consumes 1 (atom n) c
  parenthesized : ∀ t c, Consumes 1 (parenthesized n t) c
  lambda : ∀ c : Cursor, c.peek.kind ≠ .eof → Consumes 1 (lambda n) c
  cond : ∀ c : Cursor, c.peek.kind ≠ .eof → Consumes 1 (cond n) c
  letIn : ∀ c : Cursor, c.peek.kind ≠ .eof → Consumes 1 (letIn n) c
  bindings : ∀ col done c, Consumes 1 (bindings n col done) c
  binding : ∀ strict c, Consumes 1 (binding n strict) c

theorem consuming_zero : Consuming 0 := by
  constructor <;> intros <;> exact consumes_exhausted _ _

section
variable {n : Nat} (h : Consuming n)
include h

theorem Consuming.succ_operation (level : Nat) (c : Cursor) :
    Consumes 1 (Grammar.operation (n + 1) level) c := by
  unfold Grammar.operation
  exact consumes_bind (h.operand c) fun left d _ => h.operationFrom level left d

theorem Consuming.succ_operationFrom (level : Nat) (left : Expr) (c : Cursor) :
    Consumes 0 (Grammar.operationFrom (n + 1) level left) c := by
  unfold Grammar.operationFrom
  refine consumes_get ?_
  simp only
  split
  · exact consumes_pure _ _
  · rename_i hgo
    have hk : c.peek.kind = .op := Classical.byContradiction fun hk => hgo (.inl hk)
    split
    · exact consumes_fail _ _ _ _
    · split
      · exact consumes_pure _ _
      · refine (consumes_skip (by rw [hk]; decide) ?_).any
        refine consumes_seq (h.operation _ _) fun right d _ => ?_
        exact consumes_seq (consumes_checkChain _ _ d) fun _ e _ => h.operationFrom _ _ e

theorem Consuming.succ_operand (c : Cursor) : Consumes 1 (Grammar.operand (n + 1)) c := by
  unfold Grammar.operand
  refine consumes_peek ?_
  cases hk : c.peek.kind with
  | backslash => exact h.lambda c (by rw [hk]; decide)
  | kwLet => exact h.letIn c (by rw [hk]; decide)
  | kwIf => exact h.cond c (by rw [hk]; decide)
  | op =>
    simp only
    split
    · refine consumes_skip (by rw [hk]; decide) ?_
      exact consumes_seq (h.operation _ _) fun _ _ _ => consumes_pure _ _
    · exact h.application c
  | _ => exact h.application c

theorem Consuming.succ_application (c : Cursor) :
    Consumes 1 (Grammar.application (n + 1)) c := by
  unfold Grammar.application
  refine consumes_bind (h.atom c) fun fn d _ => ?_
  exact consumes_seq (h.arguments [] d) fun args e _ => consumes_pure _ _

theorem Consuming.succ_arguments (done : List Expr) (c : Cursor) :
    Consumes 0 (Grammar.arguments (n + 1) done) c := by
  unfold Grammar.arguments
  refine consumes_get ?_
  split
  · exact consumes_seq (h.atom c) fun _ _ _ => h.arguments _ _
  · exact consumes_pure _ _

theorem Consuming.succ_atom (c : Cursor) : Consumes 1 (Grammar.atom (n + 1)) c := by
  unfold Grammar.atom
  refine consumes_peek ?_
  cases hk : c.peek.kind with
  | ident | qvar | string => exact consumes_skip (by rw [hk]; decide) (consumes_pure _ _)
  | conid =>
    refine consumes_skip (by rw [hk]; decide) ?_
    split
    · exact consumes_pure _ _
    · exact consumes_pure _ _
    · exact consumes_fail _ _ _ _
  | int =>
    refine consumes_skip (by rw [hk]; decide) ?_
    split
    · exact consumes_pure _ _
    · exact consumes_fail _ _ _ _
  | lparen =>
    exact consumes_skip (by rw [hk]; decide) (h.parenthesized _ _).any
  | _ => exact consumes_fail _ _ _ _

theorem Consuming.succ_parenthesized (t : Token) (c : Cursor) :
    Consumes 1 (Grammar.parenthesized (n + 1) t) c := by
  unfold Grammar.parenthesized
  refine consumes_get ?_
  simp only
  split
  · rename_i hunit
    exact consumes_skip (by rw [hunit]; decide) (consumes_pure _ _)
  · split
    · rename_i hop
      split
      · exact consumes_fail _ _ _ _
      · refine consumes_skip (by rw [hop.1]; decide) ?_
        -- the token behind the next one is the next one behind it
        have hnext : c.advance.peek = c.peekSecond := rfl
        exact (consumes_skip (by rw [hnext, hop.2]; decide)
          (consumes_pure (Expr.operator _ _) _)).any
    · refine consumes_bind (consumes_withColumn (h.operation _ _)) fun e d _ => ?_
      exact consumes_seq (consumes_expect (by decide) _ d) fun _ _ _ => consumes_pure _ _

theorem Consuming.succ_lambda {c : Cursor} (hk : c.peek.kind ≠ .eof) :
    Consumes 1 (Grammar.lambda (n + 1)) c := by
  unfold Grammar.lambda
  refine consumes_next hk ?_
  refine consumes_seq (consumes_params _) fun ps d _ => ?_
  split
  · exact consumes_peek (consumes_fail 0 _ _ _)
  · refine consumes_seq (consumes_expect (by decide) _ d) fun _ d' _ => ?_
    exact consumes_seq (h.operation _ d') fun _ _ _ => consumes_pure _ _

theorem Consuming.succ_cond {c : Cursor} (hk : c.peek.kind ≠ .eof) :
    Consumes 1 (Grammar.cond (n + 1)) c := by
  unfold Grammar.cond
  refine consumes_next hk ?_
  refine consumes_seq (h.operation _ _) fun test d _ => ?_
  refine consumes_seq (consumes_expect (by decide) _ d) fun _ d₁ _ => ?_
  refine consumes_seq (h.operation _ d₁) fun yes d₂ _ => ?_
  refine consumes_seq (consumes_expect (by decide) _ d₂) fun _ d₃ _ => ?_
  exact consumes_seq (h.operation _ d₃) fun _ _ _ => consumes_pure _ _

theorem Consuming.succ_letIn {c : Cursor} (hk : c.peek.kind ≠ .eof) :
    Consumes 1 (Grammar.letIn (n + 1)) c := by
  unfold Grammar.letIn
  refine (consumes_next hk (consumes_peek ?_))
  split
  · exact consumes_fail _ _ _ _
  · refine consumes_seq (consumes_withColumn (h.bindings _ _ _)) fun binds d _ => ?_
    refine consumes_seq (consumes_expect (by decide) _ d) fun _ d₁ _ => ?_
    exact consumes_seq (h.operation _ d₁) fun _ _ _ => consumes_pure _ _

theorem Consuming.succ_bindings (col : Int) (done : List Binding) (c : Cursor) :
    Consumes 1 (Grammar.bindings (n + 1) col done) c := by
  unfold Grammar.bindings
  refine consumes_bind (h.binding false c) fun b d _ => consumes_peek ?_
  split
  · rename_i hsemi
    exact (consumes_skip (by rw [hsemi]; decide) (h.bindings _ _ _).any).any
  · split
    · exact consumes_pure _ _
    · split
      · exact (h.bindings _ _ d).any
      · exact consumes_fail _ _ _ _

theorem Consuming.succ_binding (strict : Bool) (c : Cursor) :
    Consumes 1 (Grammar.binding (n + 1) strict) c := by
  unfold Grammar.binding
  refine consumes_bind (consumes_expect (by decide) _ c) fun t d _ => ?_
  refine consumes_seq (consumes_params d) fun ps d₁ _ => ?_
  refine consumes_seq (consumes_expect (by decide) _ d₁) fun eq d₂ _ => ?_
  split
  · exact consumes_fail 0 _ _ _
  · exact consumes_seq (h.operation _ d₂) fun _ _ _ => consumes_pure _ _

theorem Consuming.succ : Consuming (n + 1) where
  operation := h.succ_operation
  operationFrom := h.succ_operationFrom
  operand := h.succ_operand
  application := h.succ_application
  arguments := h.succ_arguments
  atom := h.succ_atom
  parenthesized := h.succ_parenthesized
  lambda _ := h.succ_lambda
  cond _ := h.succ_cond
  letIn _ := h.succ_letIn
  bindings := h.succ_bindings
  binding := h.succ_binding

end

theorem consuming (n : Nat) : Consuming n := by
  induction n with
  | zero => exact consuming_zero
  | succ n ih => exact ih.succ

theorem consumes_expr (c : Cursor) : Consumes 1 expr c :=
  consumes_get ((consuming _).operation 0 c)

/-! ## Declarations -/

theorem consumes_signatureNames (n : Nat) (done : List String) (c : Cursor) :
    Consumes 0 (signatureNames n done) c := by
  induction n generalizing done c with
  | zero => exact consumes_exhausted 0 c
  | succ n ih =>
    unfold signatureNames
    refine consumes_peek ?_
    by_cases hcomma : c.peek.kind = .comma
    · simp only [if_pos hcomma]
      refine (consumes_skip (by rw [hcomma]; decide) ?_).any
      exact consumes_seq (consumes_expect (by decide) _ _) fun _ _ _ => ih _ _
    · simp only [if_neg hcomma]
      exact consumes_pure _ _

end Grammar

end LazySession

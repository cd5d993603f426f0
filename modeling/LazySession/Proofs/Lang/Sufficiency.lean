import LazySession.Proofs.Lang.Appending

/-!
# Eight units of fuel for each token

`Grammar.sufficient`: what can be read with any amount of fuel can be read with eight units for each
token that is taken. So `Grammar.fuel` never runs out before the tokens do.
-/

namespace LazySession

namespace Grammar

open Reader

variable {α β : Type} {least cost l₁ l₂ k₁ k₂ : Nat} {c : Cursor}

/-- A success of `r` takes at least `least` tokens, and `r'` has the same success if its fuel is eight
units for each token that was taken, and `cost` less eight. -/
def Affords (least cost : Nat) (r : Reader α) (r' : Nat → Reader α) (c : Cursor) : Prop :=
  ∀ a d, r.run c = .ok (a, d) → d.toks.length + least ≤ c.toks.length ∧
    ∀ n, 8 * c.toks.length + cost ≤ n + 8 * d.toks.length + 8 → (r' n).run c = .ok (a, d)

theorem affords_fail {r : Reader α} {r' : Nat → Reader α} (h : ∀ a d, r.run c ≠ .ok (a, d)) :
    Affords least cost r r' c :=
  fun a d hr => absurd hr (h a d)

theorem affords_pure (a : α) (cost : Nat) (c : Cursor) :
    Affords 0 cost (pure a) (fun _ => pure a) c := by
  intro b d hr
  cases hr
  exact ⟨by omega, fun _ _ => rfl⟩

theorem Affords.mono {l k : Nat} {r : Reader α} {r' : Nat → Reader α} (h : Affords l k r r' c)
    (hl : least ≤ l) (hk : k ≤ cost) : Affords least cost r r' c := by
  intro a d hr
  obtain ⟨hlen, hrun⟩ := h a d hr
  exact ⟨by omega, fun n hn => hrun n (by omega)⟩

/-- Fuel that the one half leaves over is there for the other. -/
theorem affords_bind (l₂ k₂ : Nat) {r : Reader α} {r' : Nat → Reader α} {f : α → Reader β}
    {f' : Nat → α → Reader β} (h₁ : Affords l₁ k₁ r r' c)
    (h₂ : ∀ a d, r.run c = .ok (a, d) → Affords l₂ k₂ (f a) (f' · a) d)
    (hk₁ : k₁ ≤ cost + 8 * l₂) (hk₂ : k₂ ≤ cost + 8 * l₁) :
    Affords (l₁ + l₂) cost (r >>= f) (fun n => r' n >>= f' n) c := by
  intro b d hr
  obtain ⟨a, c₁, ha, hb⟩ := bind_ok hr
  obtain ⟨hlen₁, hrun₁⟩ := h₁ a c₁ ha
  obtain ⟨hlen₂, hrun₂⟩ := h₂ a c₁ ha b d hb
  refine ⟨by omega, fun n hn => ?_⟩
  rw [run_bind, hrun₁ n (by omega)]
  exact hrun₂ n (by omega)

theorem affords_succ {r : Reader α} {r' F : Nat → Reader α} (hF : ∀ n, F (n + 1) = r' n)
    (h : Affords least cost r r' c) (hpos : 8 ≤ 8 * least + cost) :
    Affords least (cost + 1) r F c := by
  intro a d hr
  obtain ⟨hlen, hrun⟩ := h a d hr
  refine ⟨hlen, fun n hn => ?_⟩
  obtain ⟨n, rfl⟩ : ∃ k, n = k + 1 := ⟨n - 1, by omega⟩
  rw [hF]
  exact hrun n (by omega)

section
variable {f : α → Reader β} {f' : Nat → α → Reader β}

theorem affords_get {f : Cursor → Reader β} {f' : Nat → Cursor → Reader β}
    (h : Affords least cost (f c) (f' · c) c) :
    Affords least cost (get >>= f) (fun n => get >>= f' n) c := h

theorem affords_peek {f : Token → Reader β} {f' : Nat → Token → Reader β}
    (h : Affords least cost (f c.peek) (f' · c.peek) c) :
    Affords least cost (peek >>= f) (fun n => peek >>= f' n) c := h

theorem affords_skip (least : Nat) {f : Unit → Reader β} {f' : Nat → Unit → Reader β} (hk : c.peek.kind ≠ .eof)
    (h : Affords least (cost + 8) (f ()) (f' · ()) c.advance) :
    Affords (least + 1) cost (skip >>= f) (fun n => skip >>= f' n) c := by
  intro b d hr
  obtain ⟨hlen, hrun⟩ := h b d hr
  have htoks : c.toks.length = c.advance.toks.length + 1 := by
    rw [toks_eq_advance hk]
    simp
  exact ⟨by omega, fun n hn => hrun n (by omega)⟩

theorem affords_next {f : Token → Reader β} {f' : Nat → Token → Reader β}
    (h : Affords least cost (f c.peek) (f' · c.peek) c.advance) :
    Affords least cost (next >>= f) (fun n => next >>= f' n) c := by
  intro b d hr
  obtain ⟨hlen, hrun⟩ := h b d hr
  have htoks : c.advance.toks.length ≤ c.toks.length := by
    simp [Cursor.advance]
  exact ⟨by omega, fun n hn => hrun n (by omega)⟩

theorem affords_expect {kind : TokenKind} {what : String} {f : Token → Reader β}
    {f' : Nat → Token → Reader β} (hk : kind ≠ .eof)
    (h : ∀ t d, Affords least (cost + 8) (f t) (f' · t) d) :
    Affords (least + 1) cost (expect kind what >>= f) (fun n => expect kind what >>= f' n) c := by
  intro b d hr
  obtain ⟨t, c₁, ht, hb⟩ := bind_ok hr
  obtain ⟨ts, hts, -, rfl⟩ := expect_cons hk ht
  obtain ⟨hlen, hrun⟩ := h t _ b d hb
  rw [hts, List.length_cons]
  simp only at hlen hrun
  refine ⟨by omega, fun n hn => ?_⟩
  rw [run_bind, ht]
  exact hrun n (by omega)

theorem length_paramsFrom (done : List Param) (ts : List Token) :
    (paramsFrom done ts).2.length ≤ ts.length := by
  fun_induction paramsFrom done ts <;> simp_all
  · omega
  · omega

theorem affords_params {f : List Param → Reader β} {f' : Nat → List Param → Reader β}
    (h : ∀ ps d, Affords least cost (f ps) (f' · ps) d) :
    Affords least cost (params >>= f) (fun n => params >>= f' n) c := by
  intro b d hr
  obtain ⟨ps, c₁, hps, hb⟩ := bind_ok hr
  obtain ⟨hlen, hrun⟩ := h ps c₁ b d hb
  have hle : c₁.toks.length ≤ c.toks.length := by
    rw [run_params] at hps
    cases hps
    exact length_paramsFrom [] c.toks
  refine ⟨by omega, fun n hn => ?_⟩
  rw [run_bind, hps]
  exact hrun n (by omega)

theorem affords_withColumn {r : Reader α} {r' : Nat → Reader α} {x : Int}
    (h : Affords least cost r r' { c with layout := x :: c.layout }) :
    Affords least cost (withColumn x r) (fun n => withColumn x (r' n)) c := by
  intro a d hr
  obtain ⟨⟨⟩, c₁, hc₁, hr⟩ := bind_ok hr
  cases hc₁
  obtain ⟨a', c₂, ha, hr⟩ := bind_ok hr
  cases hr
  obtain ⟨hlen, hrun⟩ := h _ _ ha
  refine ⟨hlen, fun n hn => ?_⟩
  have hpush : (withColumn x (r' n)).run c = (r' n >>= fun a => do
      modify fun c => { c with layout := c.layout.tail }
      return a : Reader α).run { c with layout := x :: c.layout } := rfl
  rw [hpush, run_bind, hrun n hn]
  rfl

end

/-! ## The readers of expressions -/

/-- Success with `m` units of fuel is success with eight for each token. -/
structure Sufficient (m : Nat) : Prop where
  operation : ∀ level c, Affords 1 4 (operation m level) (operation · level) c
  operationFrom : ∀ level left c,
    Affords 0 9 (operationFrom m level left) (operationFrom · level left) c
  operand : ∀ c, Affords 1 3 (operand m) operand c
  application : ∀ c, Affords 1 2 (application m) application c
  arguments : ∀ done c, Affords 0 9 (arguments m done) (arguments · done) c
  atom : ∀ c, Affords 1 1 (atom m) atom c
  parenthesized : ∀ t c, Affords 1 8 (parenthesized m t) (parenthesized · t) c
  lambda : ∀ c, Affords 1 2 (lambda m) lambda c
  cond : ∀ c, Affords 1 2 (cond m) cond c
  letIn : ∀ c, Affords 1 2 (letIn m) letIn c
  bindings : ∀ col done c, Affords 1 9 (bindings m col done) (bindings · col done) c
  binding : ∀ strict c, Affords 1 8 (binding m strict) (binding · strict) c

theorem sufficient_zero : Sufficient 0 := by
  constructor <;> intros <;> exact affords_fail fun _ _ => exhausted_fails _

theorem affords_checkChain (t : Token) (op : Operator) (c : Cursor) :
    Affords 0 0 (checkChain t op) (fun _ => checkChain t op) c := by
  intro a d hr
  have hd : d = c := by
    obtain ⟨c', c₁, hc, hr⟩ := bind_ok hr
    cases hc
    simp only at hr
    split at hr
    · split at hr
      · split at hr
        · cases hr
        · cases hr
          rfl
      · cases hr
        rfl
    · cases hr
      rfl
  subst hd
  exact ⟨by omega, fun _ _ => hr⟩

section
variable {m : Nat} (h : Sufficient m)
include h

theorem Sufficient.succ_operation (level : Nat) (c : Cursor) :
    Affords 1 4 (Grammar.operation (m + 1) level) (Grammar.operation · level) c := by
  refine affords_succ (fun n => by rw [Grammar.operation]) ?_ (by omega)
  rw [Grammar.operation]
  exact affords_bind 0 9 (h.operand c) (fun _ _ _ => h.operationFrom _ _ _) (by omega) (by omega)

theorem Sufficient.succ_operationFrom (level : Nat) (left : Expr) (c : Cursor) :
    Affords 0 9 (Grammar.operationFrom (m + 1) level left) (Grammar.operationFrom · level left)
      c := by
  refine affords_succ (fun n => by rw [Grammar.operationFrom]) ?_ (by omega)
  rw [Grammar.operationFrom]
  refine affords_get ?_
  simp only
  by_cases hstop : c.peek.kind ≠ .op ∨ c.atBoundary = true
  · simp only [if_pos hstop]
    exact affords_pure _ _ _
  · simp only [if_neg hstop]
    have hk : c.peek.kind = .op := by
      by_contra hk
      exact hstop (.inl hk)
    cases Operator.ofText? c.peek.text with
    | none => exact affords_fail fun _ _ hr => by cases hr
    | some op =>
      simp only
      by_cases hlevel : op.level < level
      · simp only [if_pos hlevel]
        exact affords_pure _ _ _
      · simp only [if_neg hlevel]
        refine (affords_skip 1 (by rw [hk]; simp) ?_).mono (by omega) (Nat.le_refl _)
        refine affords_bind 0 9 (h.operation _ _) (fun right _ _ => ?_) (by omega) (by omega)
        exact affords_bind 0 9 (affords_checkChain _ _ _) (fun _ _ _ => h.operationFrom _ _ _)
          (by omega) (by omega)

theorem Sufficient.succ_operand (c : Cursor) :
    Affords 1 3 (Grammar.operand (m + 1)) Grammar.operand c := by
  refine affords_succ (fun n => by rw [Grammar.operand]) ?_ (by omega)
  rw [Grammar.operand]
  refine affords_peek ?_
  cases hk : c.peek.kind with
  | backslash => exact h.lambda c
  | kwLet => exact h.letIn c
  | kwIf => exact h.cond c
  | op =>
    simp only
    by_cases hminus : c.peek.text = "-"
    · simp only [if_pos hminus]
      refine (affords_skip 1 (by rw [hk]; simp) ?_).mono (by omega) (Nat.le_refl _)
      exact affords_bind 0 0 (h.operation _ _) (fun _ _ _ => affords_pure _ 0 _) (by omega) (by omega)
    · simp only [if_neg hminus]
      exact h.application c
  | _ => exact h.application c

theorem Sufficient.succ_application (c : Cursor) :
    Affords 1 2 (Grammar.application (m + 1)) Grammar.application c := by
  refine affords_succ (fun n => by rw [Grammar.application]) ?_ (by omega)
  rw [Grammar.application]
  refine affords_bind 0 9 (h.atom c) (fun fn _ _ => ?_) (by omega) (by omega)
  exact affords_bind 0 0 (h.arguments _ _) (fun _ _ _ => affords_pure _ 0 _) (by omega) (by omega)

theorem Sufficient.succ_arguments (done : List Expr) (c : Cursor) :
    Affords 0 9 (Grammar.arguments (m + 1) done) (Grammar.arguments · done) c := by
  refine affords_succ (fun n => by rw [Grammar.arguments]) ?_ (by omega)
  rw [Grammar.arguments]
  refine affords_get ?_
  by_cases hmore : startsAtom c.peek = true ∧ ¬ c.atBoundary = true
  · simp only [if_pos hmore]
    exact (affords_bind 0 9 (h.atom c) (fun _ _ _ => h.arguments _ _) (by omega)
      (by omega)).mono (by omega) (Nat.le_refl _)
  · simp only [if_neg hmore]
    exact affords_pure _ _ _

theorem Sufficient.succ_atom (c : Cursor) : Affords 1 1 (Grammar.atom (m + 1)) Grammar.atom c := by
  refine affords_succ (fun n => by rw [Grammar.atom]) ?_ (by omega)
  rw [Grammar.atom]
  refine affords_peek ?_
  cases hk : c.peek.kind with
  | ident => exact affords_skip 0 (by rw [hk]; simp) (affords_pure _ _ _)
  | qvar => exact affords_skip 0 (by rw [hk]; simp) (affords_pure _ _ _)
  | string => exact affords_skip 0 (by rw [hk]; simp) (affords_pure _ _ _)
  | conid =>
    refine affords_skip 0 (by rw [hk]; simp) ?_
    split
    · exact affords_pure _ _ _
    · exact affords_pure _ _ _
    · exact affords_fail fun _ _ hr => by cases hr
  | int =>
    refine affords_skip 0 (by rw [hk]; simp) ?_
    split
    · exact affords_pure _ _ _
    · exact affords_fail fun _ _ hr => by cases hr
  | lparen =>
    exact (affords_skip 1 (by rw [hk]; simp) (h.parenthesized _ _)).mono (by omega) (Nat.le_refl _)
  | _ => exact affords_fail fun _ _ hr => by cases hr

theorem Sufficient.succ_parenthesized (t : Token) (c : Cursor) :
    Affords 1 8 (Grammar.parenthesized (m + 1) t) (Grammar.parenthesized · t) c := by
  refine affords_succ (fun n => by rw [Grammar.parenthesized]) ?_ (by omega)
  rw [Grammar.parenthesized]
  refine affords_get ?_
  by_cases hunit : c.peek.kind = .rparen
  · simp only [if_pos hunit]
    exact affords_skip 0 (by rw [hunit]; simp) (affords_pure _ _ _)
  · simp only [if_neg hunit]
    by_cases hop : c.peek.kind = .op ∧ c.peekSecond.kind = .rparen
    · simp only [if_pos hop]
      split
      · exact affords_fail fun _ _ hr => by cases hr
      · -- both tokens are taken
        intro a d hr
        cases hr
        have htoks := toks_eq_advance (c := c) (by rw [hop.1]; simp)
        have hlen : c.advance.advance.toks.length + 1 ≤ c.toks.length := by
          rw [htoks]
          simp [Cursor.advance]
        exact ⟨hlen, fun _ _ => rfl⟩
    · simp only [if_neg hop]
      refine (affords_bind 1 0 (affords_withColumn (h.operation _ _)) (fun _ _ _ => ?_) (by omega)
        (by omega)).mono (by omega) (Nat.le_refl _)
      exact affords_expect (by simp) fun _ _ => affords_pure _ _ _

theorem Sufficient.succ_lambda (c : Cursor) :
    Affords 1 2 (Grammar.lambda (m + 1)) Grammar.lambda c := by
  refine affords_succ (fun n => by rw [Grammar.lambda]) ?_ (by omega)
  rw [Grammar.lambda]
  refine affords_next (affords_params fun ps d => ?_)
  cases ps with
  | nil => exact affords_fail fun _ _ hr => by cases hr
  | cons p ps =>
    refine Affords.mono (l := 2) ?_ (by omega) (Nat.le_refl _)
    refine affords_expect (by simp) fun _ _ => ?_
    exact affords_bind 0 0 (h.operation _ _) (fun _ _ _ => affords_pure _ 0 _) (by omega) (by omega)

theorem Sufficient.succ_cond (c : Cursor) : Affords 1 2 (Grammar.cond (m + 1)) Grammar.cond c := by
  refine affords_succ (fun n => by rw [Grammar.cond]) ?_ (by omega)
  rw [Grammar.cond]
  refine (affords_next (affords_bind 4 0 (h.operation _ _) (fun _ _ _ => ?_) (by omega)
    (by omega))).mono (by omega) (Nat.le_refl _)
  refine affords_expect (by simp) fun _ _ => ?_
  refine affords_bind 2 0 (h.operation _ _) (fun _ _ _ => ?_) (by omega) (by omega)
  refine affords_expect (by simp) fun _ _ => ?_
  exact affords_bind 0 0 (h.operation _ _) (fun _ _ _ => affords_pure _ 0 _) (by omega) (by omega)

theorem Sufficient.succ_letIn (c : Cursor) :
    Affords 1 2 (Grammar.letIn (m + 1)) Grammar.letIn c := by
  refine affords_succ (fun n => by rw [Grammar.letIn]) ?_ (by omega)
  rw [Grammar.letIn]
  refine affords_next (affords_peek ?_)
  by_cases hident : c.advance.peek.kind ≠ .ident
  · simp only [if_pos hident]
    exact affords_fail fun _ _ hr => by cases hr
  · simp only [if_neg hident]
    refine (affords_bind 2 0 (affords_withColumn (h.bindings _ _ _)) (fun _ _ _ => ?_) (by omega)
      (by omega)).mono (by omega) (Nat.le_refl _)
    refine affords_expect (by simp) fun _ _ => ?_
    exact affords_bind 0 0 (h.operation _ _) (fun _ _ _ => affords_pure _ 0 _) (by omega) (by omega)

theorem Sufficient.succ_bindings (col : Int) (done : List Binding) (c : Cursor) :
    Affords 1 9 (Grammar.bindings (m + 1) col done) (Grammar.bindings · col done) c := by
  refine affords_succ (fun n => by rw [Grammar.bindings]) ?_ (by omega)
  rw [Grammar.bindings]
  refine affords_bind 0 9 (h.binding false c) (fun b d _ => affords_peek ?_) (by omega) (by omega)
  by_cases hsemi : d.peek.kind = .semi
  · simp only [if_pos hsemi]
    exact (affords_skip 1 (by rw [hsemi]; simp)
      ((h.bindings _ _ _).mono (Nat.le_refl _) (by omega))).mono (by omega) (Nat.le_refl _)
  · simp only [if_neg hsemi]
    by_cases hin : d.peek.kind = .kwIn
    · simp only [if_pos hin]
      exact affords_pure _ _ _
    · simp only [if_neg hin]
      by_cases hnew : d.peek.kind = .ident ∧ d.peek.startsLine = true ∧ d.peek.pos.col = col
      · simp only [if_pos hnew]
        exact (h.bindings _ _ _).mono (by omega) (Nat.le_refl _)
      · simp only [if_neg hnew]
        exact affords_fail fun _ _ hr => by cases hr

theorem Sufficient.succ_binding (strict : Bool) (c : Cursor) :
    Affords 1 8 (Grammar.binding (m + 1) strict) (Grammar.binding · strict) c := by
  refine affords_succ (fun n => by rw [Grammar.binding]) ?_ (by omega)
  rw [Grammar.binding]
  refine Affords.mono (l := 3) ?_ (by omega) (Nat.le_refl _)
  refine affords_expect (by simp) fun _ _ => affords_params fun ps _ => ?_
  refine affords_expect (by simp) fun _ _ => ?_
  by_cases hstrict : strict = true ∧ ps ≠ []
  · simp only [if_pos hstrict]
    exact affords_fail fun _ _ hr => by cases hr
  · simp only [if_neg hstrict]
    exact affords_bind 0 0 (h.operation _ _) (fun _ _ _ => affords_pure _ 0 _) (by omega) (by omega)

theorem Sufficient.succ : Sufficient (m + 1) where
  operation := h.succ_operation
  operationFrom := h.succ_operationFrom
  operand := h.succ_operand
  application := h.succ_application
  arguments := h.succ_arguments
  atom := h.succ_atom
  parenthesized := h.succ_parenthesized
  lambda := h.succ_lambda
  cond := h.succ_cond
  letIn := h.succ_letIn
  bindings := h.succ_bindings
  binding := h.succ_binding

end

theorem sufficient (m : Nat) : Sufficient m := by
  induction m with
  | zero => exact sufficient_zero
  | succ m ih => exact ih.succ

end Grammar

end LazySession

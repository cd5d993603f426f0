import LazySession.Proofs.Lang.TypeReading

/-!
# What is printed is read back

`Grammar.reads_operation`: the words of a writable expression are read as that expression, but for
places. With it, and the same for declarations, `Printed.read_back`: what is printed is read as the
tree that it was printed from.
-/

namespace LazySession

open Token.Word (inParens)

namespace Grammar

open Reader

variable {P : Expr → Prop} {ws : List Token.Word} {n level : Nat}

/-! ## Expressions in parentheses -/

/-- The first words of an expression, which no parenthesis closes at once. -/
inductive Opens : List Token.Word → Prop
  | atom {w : Token.Word} {ws : List Token.Word} (h : w.1 ≠ .rparen ∧ w.1 ≠ .op) : Opens (w :: ws)
  | sign {w v : Token.Word} {ws : List Token.Word} (h : w.1 = .op) (h' : v.1 ≠ .rparen) :
    Opens (w :: v :: ws)

theorem opens_words (e : Expr) : Opens e.words := by
  cases e with
  | negate p e => exact .sign rfl (by simp [Token.Word.lparen])
  | _ => exact .atom (by simp [Token.Word.lparen])

theorem reads_atom_parens (hw : Opens ws) (h : (operation n 0).Reads ws Stops P) :
    (atom (n + 2)).Reads (inParens ws) Anything P := by
  intro ts tail stop layout hts _
  obtain ⟨l, us, r, rfl, hl, hr, hus⟩ := hts.parens
  have hinner := h us (r :: tail) stop (0 :: layout) hus.row (by rintro t ⟨⟩; simp [hr])
  -- the token behind the parenthesis is neither another one nor an operator alone
  have hopen : (Cursor.peek ⟨us ++ r :: tail, stop, layout⟩).kind ≠ .rparen ∧
      ¬ ((Cursor.peek ⟨us ++ r :: tail, stop, layout⟩).kind = .op ∧
        (Cursor.peekSecond ⟨us ++ r :: tail, stop, layout⟩).kind = .rparen) := by
    cases hw with
    | atom hk =>
      obtain ⟨u, us, rfl, hu, -, -⟩ := hus.cons
      subst hu
      exact ⟨hk.1, fun hop => hk.2 hop.1⟩
    | sign hk hk' =>
      obtain ⟨u, us, rfl, hu, -, hus⟩ := hus.cons
      obtain ⟨v, us, rfl, hv, -, -⟩ := hus.cons
      subst hu hv
      refine ⟨?_, fun hop => hk' hop.2⟩
      change u.kind ≠ _
      rw [show u.kind = .op from hk]
      simp
  simp only [List.cons_append, List.append_assoc, List.nil_append]
  rw [atom]
  refine yields_peek ?_
  simp only [hl]
  refine yields_skip ?_
  rw [parenthesized]
  refine yields_get ?_
  rw [if_neg hopen.1, if_neg hopen.2]
  refine yields_bind (yields_withColumn (hinner.mono ?_))
  rintro a c ⟨rfl, ha⟩
  exact yields_expect hr (yields_pure ⟨rfl, ha⟩)

theorem yields_arguments_end {tail : List Token} (h : Halts tail) (stop : Pos) (layout : List Int)
    (done : List Expr) {Q : List Expr → Cursor → Prop} (hQ : Q done.reverse ⟨tail, stop, layout⟩) :
    (arguments (n + 1) done).Yields ⟨tail, stop, layout⟩ Q := by
  rw [arguments]
  refine yields_get ?_
  rw [if_neg (by simp [h.peek stop layout])]
  exact yields_pure hQ

theorem yields_operationFrom_end {tail : List Token} (h : Stops tail) (stop : Pos)
    (layout : List Int) (left : Expr) {Q : Expr → Cursor → Prop}
    (hQ : Q left ⟨tail, stop, layout⟩) :
    (operationFrom (n + 1) level left).Yields ⟨tail, stop, layout⟩ Q := by
  rw [operationFrom]
  refine yields_get ?_
  rw [if_pos (.inl (h.peek stop layout).1)]
  exact yields_pure hQ

theorem reads_application_atom (h : (atom (n + 1)).Reads ws Anything P) :
    (application (n + 2)).Reads ws Halts P := by
  intro ts tail stop layout hts ht
  rw [application]
  refine yields_bind ((h ts tail stop layout hts trivial).mono ?_)
  rintro a c ⟨rfl, ha⟩
  refine yields_bind (yields_arguments_end ht stop layout [] ?_)
  exact yields_pure ⟨rfl, ha⟩

/-- The first word is none of those that start something else than an application. -/
def OpensApplication (ws : List Token.Word) : Prop :=
  ∃ w ws', ws = w :: ws' ∧ w.1 ∉ [.backslash, .kwLet, .kwIf, .op]

theorem yields_operand {c : Cursor} {Q : Expr → Cursor → Prop}
    (hk : c.peek.kind ∉ [.backslash, .kwLet, .kwIf, .op]) (h : (application n).Yields c Q) :
    (operand (n + 1)).Yields c Q := by
  rw [operand]
  refine yields_look ?_
  simp only [List.mem_cons, List.not_mem_nil, or_false, not_or] at hk
  obtain ⟨h₁, h₂, h₃, h₄⟩ := hk
  split
  · contradiction
  · contradiction
  · contradiction
  · contradiction
  · exact h

theorem peek_of_opens (hw : OpensApplication ws) {ts tail : List Token} (hts : Row ws ts) (stop : Pos)
    (layout : List Int) :
    (Cursor.peek ⟨ts ++ tail, stop, layout⟩).kind ∉ [.backslash, .kwLet, .kwIf, .op] := by
  obtain ⟨w, ws, rfl, hk⟩ := hw
  obtain ⟨t, ts, rfl, ht, -⟩ := hts.cons
  subst ht
  exact hk

theorem reads_operation_application (hw : OpensApplication ws)
    (h : (application n).Reads ws Halts P) : (operation (n + 2) level).Reads ws Stops P := by
  intro ts tail stop layout hts ht
  rw [operation]
  refine yields_bind (yields_operand (peek_of_opens hw hts stop layout)
    ((h ts tail stop layout hts ht.halts).mono ?_))
  rintro a c ⟨rfl, ha⟩
  exact yields_operationFrom_end ht stop layout a ⟨rfl, ha⟩

theorem reads_operation_atom (hw : OpensApplication ws) (h : (atom (n + 1)).Reads ws Anything P) :
    (operation (n + 4) level).Reads ws Stops P :=
  reads_operation_application hw (reads_application_atom h)

theorem reads_operation_parens (level : Nat) (hw : Opens ws) (h : (operation n 0).Reads ws Stops P) :
    (operation (n + 5) level).Reads (inParens ws) Stops P :=
  reads_operation_atom ⟨_, _, rfl, by simp [Token.Word.lparen]⟩ (reads_atom_parens hw h)

/-! ## Atoms -/

theorem reads_atom {w : Token.Word} (h : ∀ (t : Token) (tail : List Token) (stop : Pos)
    (layout : List Int), t.word = w → (atom (n + 1)).Yields ⟨t :: tail, stop, layout⟩ fun a c =>
      c = ⟨tail, stop, layout⟩ ∧ P a) : (atom (n + 1)).Reads [w] Anything P := by
  intro ts tail stop layout hts _
  obtain ⟨t, us, rfl, ht, hus⟩ := hts.cons
  obtain rfl := hus.row.nil
  exact h t tail stop layout ht

theorem reads_atom_var (n : Nat) (name : String) :
    (atom (n + 1)).Reads [(.ident, name)] Anything fun e => e.erase = .var .start name := by
  refine reads_atom fun t tail stop layout ht => ?_
  obtain ⟨hk, hx⟩ := word_eq ht
  rw [atom]
  refine yields_peek ?_
  simp only [hk]
  exact yields_skip (yields_pure ⟨rfl, by rw [hx]; rfl⟩)

theorem reads_atom_qualified (n : Nat) (mod : String) {name : String} (hn : IsIdent name) :
    (atom (n + 1)).Reads [(.qvar, mod ++ "." ++ name)] Anything fun e =>
      e.erase = .qualified .start mod name := by
  refine reads_atom fun t tail stop layout ht => ?_
  obtain ⟨hk, hx⟩ := word_eq ht
  rw [atom]
  refine yields_peek ?_
  simp only [hk]
  refine yields_skip ?_
  rw [hx, splitQualified_eq hn]
  exact yields_pure ⟨rfl, rfl⟩

theorem reads_atom_int (n : Nat) {value : Int64} (hv : 0 ≤ value.toInt) :
    (atom (n + 1)).Reads [(.int, Text.ofInt64 value)] Anything fun e =>
      e.erase = .int .start value := by
  refine reads_atom fun t tail stop layout ht => ?_
  obtain ⟨hk, hx⟩ := word_eq ht
  rw [atom]
  refine yields_peek ?_
  simp only [hk]
  refine yields_skip ?_
  rw [hx, unsigned?_ofInt64 hv]
  exact yields_pure ⟨rfl, rfl⟩

theorem reads_atom_str (n : Nat) (value : String) :
    (atom (n + 1)).Reads [(.string, value)] Anything fun e => e.erase = .str .start value := by
  refine reads_atom fun t tail stop layout ht => ?_
  obtain ⟨hk, hx⟩ := word_eq ht
  rw [atom]
  refine yields_peek ?_
  simp only [hk]
  exact yields_skip (yields_pure ⟨rfl, by rw [hx]; rfl⟩)

theorem reads_atom_bool (n : Nat) (value : Bool) :
    (atom (n + 1)).Reads [(.conid, if value then "True" else "False")] Anything fun e =>
      e.erase = .bool .start value := by
  refine reads_atom fun t tail stop layout ht => ?_
  obtain ⟨hk, hx⟩ := word_eq ht
  rw [atom]
  refine yields_peek ?_
  simp only [hk]
  refine yields_skip ?_
  cases value
  · simp only [hx]
    exact yields_pure ⟨rfl, rfl⟩
  · simp only [hx]
    exact yields_pure ⟨rfl, rfl⟩

theorem reads_atom_unit (n : Nat) :
    (atom (n + 2)).Reads (inParens []) Anything fun e => e.erase = .unit .start := by
  intro ts tail stop layout hts _
  obtain ⟨l, us, r, rfl, hl, hr, hus⟩ := hts.parens
  obtain rfl := hus.row.nil
  simp only [List.cons_append, List.nil_append]
  rw [atom]
  refine yields_peek ?_
  simp only [hl]
  refine yields_skip ?_
  rw [parenthesized]
  refine yields_get ?_
  have hclosed : (Cursor.peek ⟨r :: tail, stop, layout⟩).kind = .rparen := hr
  rw [if_pos hclosed]
  exact yields_skip (yields_pure ⟨rfl, rfl⟩)

theorem reads_atom_operator (n : Nat) (op : Operator) :
    (atom (n + 2)).Reads (inParens [(.op, op.text)]) Anything fun e =>
      e.erase = .operator .start op := by
  intro ts tail stop layout hts _
  obtain ⟨l, us, r, rfl, hl, hr, hus⟩ := hts.parens
  obtain ⟨o, _, rfl, ho, -, hnil⟩ := hus.cons
  obtain rfl := hnil.row.nil
  obtain ⟨hk, hx⟩ := word_eq ho
  simp only [List.cons_append, List.nil_append]
  rw [atom]
  refine yields_peek ?_
  simp only [hl]
  refine yields_skip ?_
  rw [parenthesized]
  refine yields_get ?_
  have hne : (Cursor.peek ⟨o :: r :: tail, stop, layout⟩).kind ≠ .rparen := by
    simp [Cursor.peek, hk]
  have htext : Operator.ofText? (Cursor.peek ⟨o :: r :: tail, stop, layout⟩).text = some op := by
    rw [← Operator.ofText?_text op, ← hx]
    rfl
  rw [if_neg hne, if_pos ⟨hk, hr⟩, htext]
  exact yields_skip (yields_skip (yields_pure ⟨rfl, rfl⟩))

/-! ## Parameters -/

theorem paramsFrom_end {tail : List Token} (h : ∃ t us, tail = t :: us ∧ t.kind ∈ [.arrow, .equals])
    (done : List Param) : paramsFrom done tail = (done.reverse, tail) := by
  obtain ⟨t, us, rfl, ht⟩ := h
  simp only [List.mem_cons, List.not_mem_nil, or_false] at ht
  have hident : t.kind ≠ .ident := by rcases ht with ht | ht <;> simp [ht]
  have hparen : t.kind ≠ .lparen := by rcases ht with ht | ht <;> simp [ht]
  unfold paramsFrom
  rw [if_neg hident]
  cases us with
  | nil => rfl
  | cons u us =>
    simp only
    rw [if_neg fun h => hparen h.1]

theorem paramsFrom_words {tail : List Token}
    (h : ∃ t us, tail = t :: us ∧ t.kind ∈ [.arrow, .equals]) (ps : List Param) :
    ∀ {ts : List Token} (done : List Param), Inner (ps.flatMap Param.words) ts →
      paramsFrom done (ts ++ tail) = (done.reverse ++ ps, tail) := by
  induction ps with
  | nil =>
    intro ts done hts
    obtain rfl := hts.row.nil
    rw [List.nil_append, List.append_nil, paramsFrom_end h]
  | cons p ps ih =>
    intro ts done hts
    cases p with
    | named x =>
      obtain ⟨t, ts, rfl, ht, -, hts⟩ := Inner.cons hts
      obtain ⟨hk, hx⟩ := word_eq ht
      rw [List.cons_append, paramsFrom.eq_def]
      simp only
      rw [if_pos hk, ih _ hts, hx]
      simp
    | unit =>
      obtain ⟨l, ts, rfl, hl, -, hts⟩ := Inner.cons hts
      obtain ⟨r, ts, rfl, hr, -, hts⟩ := Inner.cons hts
      have hl := (word_eq hl).1
      have hr := (word_eq hr).1
      rw [List.cons_append, List.cons_append, paramsFrom.eq_def]
      simp only
      rw [if_neg (by simp [hl]), if_pos ⟨hl, hr⟩, ih _ hts]
      simp

theorem yields_params {ts tail : List Token} {stop : Pos} {layout : List Int} {β : Type}
    {f : List Param → Reader β} {R : β → Cursor → Prop} (ps : List Param)
    (h : ∃ t us, tail = t :: us ∧ t.kind ∈ [.arrow, .equals])
    (hts : Inner (ps.flatMap Param.words) ts) (hf : (f ps).Yields ⟨tail, stop, layout⟩ R) :
    (params >>= f).Yields ⟨ts ++ tail, stop, layout⟩ R := by
  refine yields_bind ⟨ps, ⟨tail, stop, layout⟩, ?_, hf⟩
  have hparams := paramsFrom_words h ps [] hts
  unfold params
  rw [run_bind, run_get]
  simp only [hparams]
  rfl

/-! ## Forms of expressions -/

theorem atBoundary_inner {t : Token} (h : t.startsLine = false) (ts : List Token) (stop : Pos)
    (layout : List Int) : Cursor.atBoundary ⟨t :: ts, stop, layout⟩ = false := by
  cases layout <;> simp [Cursor.atBoundary, Cursor.peek, h]

theorem yields_checkChain {tail : List Token} (h : Stops tail) (stop : Pos) (layout : List Int)
    (t : Token) (op : Operator) {Q : Unit → Cursor → Prop} (hQ : Q () ⟨tail, stop, layout⟩) :
    (checkChain t op).Yields ⟨tail, stop, layout⟩ Q := by
  unfold checkChain
  refine yields_get ?_
  rw [if_neg fun hc => (h.peek stop layout).1 hc.2.1]
  exact yields_pure hQ

theorem peek_parens {ts tail : List Token} (hts : Row (inParens ws) ts) (stop : Pos)
    (layout : List Int) :
    (Cursor.peek ⟨ts ++ tail, stop, layout⟩).kind ∉ [.backslash, .kwLet, .kwIf, .op] :=
  peek_of_opens ⟨_, _, rfl, by simp [Token.Word.lparen]⟩ hts stop layout

section
variable {l r e body test yes no : Expr}

theorem reads_binary (op : Operator)
    (hl : (operation (n + 2) 0).Reads l.words Stops (·.erase = l.erase))
    (hr : (operation n 0).Reads r.words Stops (·.erase = r.erase)) :
    (operation (n + 7) 0).Reads (inParens l.words ++ (.op, op.text) :: inParens r.words) Stops
      fun e => e.erase = .binary .start op l.erase r.erase := by
  have hleft : (application (n + 5)).Reads (inParens l.words) Halts (·.erase = l.erase) :=
    reads_application_atom (reads_atom_parens (opens_words l) hl)
  intro ts tail stop layout hts ht
  obtain ⟨ts₁, ts₂, rfl, h₁, h₂⟩ := hts.append (by simp [inParens])
  obtain ⟨o, ts₃, rfl, ho, hin, h₃⟩ := h₂.cons
  obtain ⟨hk, hx⟩ := word_eq ho
  have hhalts : Halts (o :: (ts₃ ++ tail)) := by
    rintro t ⟨⟩
    simp [startsAtom, hk]
  rw [operation, List.append_assoc, List.cons_append]
  refine yields_bind (yields_operand (peek_parens h₁ stop layout)
    ((hleft ts₁ (o :: (ts₃ ++ tail)) stop layout h₁ hhalts).mono ?_))
  rintro a c ⟨rfl, ha⟩
  rw [operationFrom]
  refine yields_get ?_
  have hop : ¬ ((Cursor.peek ⟨o :: (ts₃ ++ tail), stop, layout⟩).kind ≠ .op ∨
      Cursor.atBoundary ⟨o :: (ts₃ ++ tail), stop, layout⟩ = true) := by
    rw [atBoundary_inner hin]
    simp [Cursor.peek, hk]
  have htext : Operator.ofText? (Cursor.peek ⟨o :: (ts₃ ++ tail), stop, layout⟩).text = some op := by
    rw [← Operator.ofText?_text op, ← hx]
    rfl
  rw [if_neg hop, htext]
  simp only
  rw [if_neg (Nat.not_lt_zero _)]
  have hright := reads_operation_parens op.rightLevel (opens_words r) hr
  refine yields_skip (yields_bind ((hright ts₃ tail stop layout h₃.row ht).mono ?_))
  rintro b c ⟨rfl, hb⟩
  refine yields_bind (yields_checkChain ht stop layout _ op ?_)
  refine yields_operationFrom_end ht stop layout _ ⟨rfl, ?_⟩
  simp only [Expr.erase, ha, hb]

theorem reads_negate (he : (operation n 0).Reads e.words Stops (·.erase = e.erase)) :
    (operation (n + 7) 0).Reads ((.op, "-") :: inParens e.words) Stops
      fun e' => e'.erase = .negate .start e.erase := by
  intro ts tail stop layout hts ht
  obtain ⟨o, ts, rfl, ho, hts⟩ := hts.cons
  obtain ⟨hk, hx⟩ := word_eq ho
  have harg := reads_operation_parens 7 (opens_words e) he
  rw [operation]
  refine yields_bind ?_
  rw [operand]
  refine yields_peek ?_
  simp only [hk]
  rw [if_pos hx]
  refine yields_skip (yields_bind ((harg ts tail stop layout hts.row ht).mono ?_))
  rintro a c ⟨rfl, ha⟩
  refine yields_pure (yields_operationFrom_end ht stop layout _ ⟨rfl, ?_⟩)
  simp only [Expr.erase, ha]

theorem reads_lambda (p : Param) (ps : List Param)
    (hb : (operation n 0).Reads body.words Stops (·.erase = body.erase)) :
    (operation (n + 8) 0).Reads ((.backslash, "\\") :: ((p :: ps).flatMap Param.words ++
      (.arrow, "->") :: inParens body.words)) Stops
      fun e => e.erase = .lambda .start p ps body.erase := by
  intro ts tail stop layout hts ht
  obtain ⟨o, ts, rfl, ho, hts⟩ := hts.cons
  obtain ⟨ts₁, ts₂, rfl, h₁, h₂⟩ := hts.append
  obtain ⟨a, ts₃, rfl, ha, -, h₃⟩ := h₂.cons
  have hk := (word_eq ho).1
  have hk' := (word_eq ha).1
  have hbody := reads_operation_parens 0 (opens_words body) hb
  simp only [List.append_assoc, List.cons_append]
  rw [operation]
  refine yields_bind ?_
  rw [operand]
  refine yields_peek ?_
  simp only [hk]
  rw [lambda]
  refine yields_next (yields_params (p :: ps) ⟨a, _, rfl, by simp [hk']⟩ h₁ ?_)
  refine yields_expect hk' (yields_bind ((hbody ts₃ tail stop layout h₃.row ht).mono ?_))
  rintro b c ⟨rfl, hb⟩
  refine yields_pure (yields_operationFrom_end ht stop layout _ ⟨rfl, ?_⟩)
  simp only [Expr.erase, hb]

theorem reads_cond (htest : (operation n 0).Reads test.words Stops (·.erase = test.erase))
    (hyes : (operation n 0).Reads yes.words Stops (·.erase = yes.erase))
    (hno : (operation n 0).Reads no.words Stops (·.erase = no.erase)) :
    (operation (n + 8) 0).Reads ((.kwIf, "if") :: (inParens test.words ++ (.kwThen, "then") ::
      (inParens yes.words ++ (.kwElse, "else") :: inParens no.words))) Stops
      fun e => e.erase = .cond .start test.erase yes.erase no.erase := by
  intro ts tail stop layout hts ht
  obtain ⟨o, ts, rfl, ho, hts⟩ := hts.cons
  obtain ⟨ts₁, ts', rfl, h₁, hts⟩ := hts.append
  obtain ⟨t₁, ts', rfl, hthen, -, hts⟩ := hts.cons
  obtain ⟨ts₂, ts', rfl, h₂, hts⟩ := hts.append
  obtain ⟨t₂, ts₃, rfl, helse, -, h₃⟩ := hts.cons
  have hk := (word_eq ho).1
  have hk₁ := (word_eq hthen).1
  have hk₂ := (word_eq helse).1
  simp only [List.append_assoc, List.cons_append]
  rw [operation]
  refine yields_bind ?_
  rw [operand]
  refine yields_peek ?_
  simp only [hk]
  rw [cond]
  refine yields_next (yields_bind ((reads_operation_parens 0 (opens_words test) htest
    ts₁ _ stop layout h₁.row (by rintro t ⟨⟩; simp [hk₁])).mono ?_))
  rintro a c ⟨rfl, ha⟩
  refine yields_expect hk₁ (yields_bind ((reads_operation_parens 0 (opens_words yes) hyes
    ts₂ _ stop layout h₂.row (by rintro t ⟨⟩; simp [hk₂])).mono ?_))
  rintro b c ⟨rfl, hb⟩
  refine yields_expect hk₂ (yields_bind ((reads_operation_parens 0 (opens_words no) hno
    ts₃ tail stop layout h₃.row ht).mono ?_))
  rintro d c ⟨rfl, hd⟩
  refine yields_pure (yields_operationFrom_end ht stop layout _ ⟨rfl, ?_⟩)
  simp only [Expr.erase, ha, hb, hd]

/-! ## Bindings -/

/-- The binding without its places. -/
def eraseBinding (b : Binding) : Binding := ⟨.start, b.name, b.params, b.strict, b.body.erase⟩

theorem yields_binding (name : String) (params : List Param) (strict : Bool)
    (hb : (operation n 0).Reads body.words Stops (·.erase = body.erase))
    (hs : strict = true → params = []) {ts tail : List Token} {stop : Pos} {layout : List Int}
    (hts : Row (BindingOf.wordsOf name params body.words) ts) (ht : Stops tail) :
    (binding (n + 6) strict).Yields ⟨ts ++ tail, stop, layout⟩ fun b c =>
      c = ⟨tail, stop, layout⟩ ∧ eraseBinding b = ⟨.start, name, params, strict, body.erase⟩ := by
  obtain ⟨x, ts, rfl, hx, hts⟩ := hts.cons
  obtain ⟨ts₁, ts₂, rfl, h₁, h₂⟩ := hts.append
  obtain ⟨a, ts₃, rfl, ha, -, h₃⟩ := h₂.cons
  obtain ⟨hk, hname⟩ := word_eq hx
  have hk' := (word_eq ha).1
  simp only [List.append_assoc, List.cons_append]
  rw [binding]
  refine yields_expect hk (yields_params params ⟨a, _, rfl, by simp [hk']⟩ h₁ ?_)
  refine yields_expect hk' ?_
  have hallowed : ¬ (strict = true ∧ params ≠ []) := fun h => h.2 (hs h.1)
  rw [if_neg hallowed]
  refine yields_bind ((reads_operation_parens 0 (opens_words body) hb ts₃ tail stop layout h₃.row
    ht).mono ?_)
  rintro e c ⟨rfl, he⟩
  exact yields_pure ⟨rfl, by simp only [eraseBinding, he, hname]⟩

end

theorem eraseAll_eq (es : List Expr) : Expr.eraseAll es = es.map Expr.erase := by
  induction es with
  | nil => rfl
  | cons e es ih => rw [Expr.eraseAll, ih, List.map_cons]

theorem eraseBinds_eq (bs : List Binding) : Expr.eraseBinds bs = bs.map eraseBinding := by
  induction bs with
  | nil => rfl
  | cons b bs ih =>
    obtain ⟨pos, name, params, strict, body⟩ := b
    rw [Expr.eraseBinds, ih, List.map_cons]
    rfl

/-- A function and its arguments. -/
theorem reads_app {fn : Expr} {args : List Expr} (hne : args ≠ [])
    (hf : (operation (n + 1) 0).Reads fn.words Stops (·.erase = fn.erase))
    (ha : ∀ ts tail stop layout, Inner (Expr.wordsAll args) ts → Halts tail →
      (arguments (n + 3) []).Yields ⟨ts ++ tail, stop, layout⟩ fun es c =>
        c = ⟨tail, stop, layout⟩ ∧ es.map Expr.erase = args.map Expr.erase) :
    (operation (n + 6) 0).Reads (inParens fn.words ++ Expr.wordsAll args) Stops
      fun e => e.erase = .app fn.erase (Expr.eraseAll args) := by
  refine reads_operation_application ⟨_, _, rfl, by simp [Token.Word.lparen]⟩ ?_
  intro ts tail stop layout hts ht
  obtain ⟨ts₁, ts₂, rfl, h₁, h₂⟩ := hts.append (by simp [inParens])
  rw [application, List.append_assoc]
  refine yields_bind ((reads_atom_parens (opens_words fn) hf ts₁ (ts₂ ++ tail) stop layout h₁
    trivial).mono ?_)
  rintro f c ⟨rfl, hf⟩
  refine yields_bind ((ha ts₂ tail stop layout h₂ ht).mono ?_)
  rintro es c ⟨rfl, hes⟩
  have hempty : es.isEmpty = false := by
    cases es with
    | nil => exact absurd (List.map_eq_nil_iff.mp hes.symm) hne
    | cons => rfl
  rw [hempty]
  refine yields_pure ⟨rfl, ?_⟩
  simp only [Bool.false_eq_true, if_false, Expr.erase, hf, eraseAll_eq, hes]

theorem reads_letIn {binds : List Binding} {body : Expr} (hne : binds ≠ [])
    (hs : ∀ col ts tail stop layout, Inner (Expr.wordsBinds binds) ts →
      (∃ t us, tail = t :: us ∧ t.kind = .kwIn) →
      (bindings (n + 5) col []).Yields ⟨ts ++ tail, stop, layout⟩ fun bs c =>
        c = ⟨tail, stop, layout⟩ ∧ bs.map eraseBinding = binds.map eraseBinding)
    (hb : (operation n 0).Reads body.words Stops (·.erase = body.erase)) :
    (operation (n + 8) 0).Reads ((.kwLet, "let") :: (Expr.wordsBinds binds ++
      (.kwIn, "in") :: inParens body.words)) Stops
      fun e => e.erase = .letIn .start (Expr.eraseBinds binds) body.erase := by
  intro ts tail stop layout hts ht
  obtain ⟨o, ts, rfl, ho, hts⟩ := hts.cons
  obtain ⟨ts₁, ts₂, rfl, h₁, h₂⟩ := hts.append
  obtain ⟨i, ts₃, rfl, hi, -, h₃⟩ := h₂.cons
  have hk := (word_eq ho).1
  have hk' := (word_eq hi).1
  obtain ⟨x, us, rfl, hx⟩ : ∃ x us, ts₁ = x :: us ∧ x.kind = .ident := by
    cases binds with
    | nil => exact absurd rfl hne
    | cons b bs =>
      obtain ⟨_, name, params, _, body⟩ := b
      obtain ⟨x, us, rfl, hx, -⟩ := h₁.cons
      exact ⟨x, us, rfl, (word_eq hx).1⟩
  have hblock := hs x.pos.col (x :: us) (i :: (ts₃ ++ tail)) stop (x.pos.col :: layout) h₁
    ⟨i, _, rfl, hk'⟩
  simp only [List.append_assoc, List.cons_append] at hblock ⊢
  rw [operation]
  refine yields_bind ?_
  rw [operand]
  refine yields_peek ?_
  simp only [hk]
  rw [letIn]
  refine yields_next (yields_peek ?_)
  rw [if_neg (by simp [hx])]
  refine yields_bind (yields_withColumn (hblock.mono ?_))
  rintro bs c ⟨rfl, hbs⟩
  refine yields_expect hk' (yields_bind ((reads_operation_parens 0 (opens_words body) hb ts₃ tail stop
    layout h₃.row ht).mono ?_))
  rintro e c ⟨rfl, he⟩
  refine yields_pure (yields_operationFrom_end ht stop layout _ ⟨rfl, ?_⟩)
  simp only [Expr.erase, he, eraseBinds_eq, hbs]

/-! ## All expressions -/

theorem length_wordsOf (name : String) (params : List Param) (body : List Token.Word) :
    body.length + 4 ≤ (BindingOf.wordsOf name params body).length := by
  simp only [BindingOf.wordsOf, List.length_cons, List.length_append, length_inParens]
  omega

mutual

theorem reads_operation : ∀ (e : Expr), e.Writable → ∀ n, 8 * e.words.length ≤ n →
    (operation n 0).Reads e.words Stops fun e' => e'.erase = e.erase
  | .var _ name, _, n, hn => by
    obtain ⟨m, rfl⟩ : ∃ m, n = m + 4 := ⟨n - 4, by simp [Expr.words] at hn; omega⟩
    exact reads_operation_atom ⟨_, _, rfl, by simp⟩ (reads_atom_var m name)
  | .qualified _ mod name, ⟨_, hx⟩, n, hn => by
    obtain ⟨m, rfl⟩ : ∃ m, n = m + 4 := ⟨n - 4, by simp [Expr.words] at hn; omega⟩
    exact reads_operation_atom ⟨_, _, rfl, by simp⟩ (reads_atom_qualified m mod hx)
  | .int _ value, hv, n, hn => by
    obtain ⟨m, rfl⟩ : ∃ m, n = m + 4 := ⟨n - 4, by simp [Expr.words] at hn; omega⟩
    exact reads_operation_atom ⟨_, _, rfl, by simp⟩ (reads_atom_int m hv)
  | .str _ value, _, n, hn => by
    obtain ⟨m, rfl⟩ : ∃ m, n = m + 4 := ⟨n - 4, by simp [Expr.words] at hn; omega⟩
    exact reads_operation_atom ⟨_, _, rfl, by simp⟩ (reads_atom_str m value)
  | .bool _ value, _, n, hn => by
    obtain ⟨m, rfl⟩ : ∃ m, n = m + 4 := ⟨n - 4, by simp [Expr.words] at hn; omega⟩
    exact reads_operation_atom ⟨_, _, rfl, by simp⟩ (reads_atom_bool m value)
  | .unit _, _, n, hn => by
    simp only [Expr.words, length_inParens] at hn
    obtain ⟨m, rfl⟩ : ∃ m, n = m + 5 := ⟨n - 5, by omega⟩
    exact reads_operation_atom ⟨_, _, rfl, by simp [Token.Word.lparen]⟩ (reads_atom_unit m)
  | .operator _ op, _, n, hn => by
    simp only [Expr.words, length_inParens] at hn
    obtain ⟨m, rfl⟩ : ∃ m, n = m + 5 := ⟨n - 5, by omega⟩
    exact reads_operation_atom ⟨_, _, rfl, by simp [Token.Word.lparen]⟩ (reads_atom_operator m op)
  | .app fn args, ⟨hf, hne, ha⟩, n, hn => by
    simp only [Expr.words, List.length_append, length_inParens] at hn
    obtain ⟨m, rfl⟩ : ∃ m, n = m + 6 := ⟨n - 6, by omega⟩
    refine reads_app hne (reads_operation fn hf (m + 1) (by omega)) ?_
    intro ts tail stop layout hts ht
    exact yields_arguments args ha (m + 3) [] (by omega) hts ht
  | .binary _ op l r, ⟨hl, hr⟩, n, hn => by
    simp only [Expr.words, List.length_append, List.length_cons, length_inParens] at hn
    obtain ⟨m, rfl⟩ : ∃ m, n = m + 7 := ⟨n - 7, by omega⟩
    exact reads_binary op (reads_operation l hl (m + 2) (by omega)) (reads_operation r hr m (by omega))
  | .negate _ e, he, n, hn => by
    simp only [Expr.words, List.length_cons, length_inParens] at hn
    obtain ⟨m, rfl⟩ : ∃ m, n = m + 7 := ⟨n - 7, by omega⟩
    exact reads_negate (reads_operation e he m (by omega))
  | .lambda _ p ps body, ⟨_, hb⟩, n, hn => by
    simp only [Expr.words, List.length_append, List.length_cons, length_inParens] at hn
    obtain ⟨m, rfl⟩ : ∃ m, n = m + 8 := ⟨n - 8, by omega⟩
    exact reads_lambda p ps (reads_operation body hb m (by omega))
  | .letIn _ binds body, ⟨hne, hs, hb⟩, n, hn => by
    simp only [Expr.words, List.length_append, List.length_cons, length_inParens] at hn
    obtain ⟨m, rfl⟩ : ∃ m, n = m + 8 := ⟨n - 8, by omega⟩
    refine reads_letIn hne ?_ (reads_operation body hb m (by omega))
    intro col ts tail stop layout hts ht
    exact yields_bindings binds hne hs (m + 5) col [] (by omega) hts ht
  | .cond _ test yes no, ⟨ht, hy, hn'⟩, n, hn => by
    simp only [Expr.words, List.length_append, List.length_cons, length_inParens] at hn
    obtain ⟨m, rfl⟩ : ∃ m, n = m + 8 := ⟨n - 8, by omega⟩
    exact reads_cond (reads_operation test ht m (by omega)) (reads_operation yes hy m (by omega))
      (reads_operation no hn' m (by omega))

theorem yields_arguments : ∀ (es : List Expr), Expr.AllWritable es → ∀ (n : Nat) (done : List Expr),
    8 * (Expr.wordsAll es).length < n → ∀ {ts tail : List Token} {stop : Pos} {layout : List Int},
    Inner (Expr.wordsAll es) ts → Halts tail →
    (arguments n done).Yields ⟨ts ++ tail, stop, layout⟩ fun as c =>
      c = ⟨tail, stop, layout⟩ ∧
        as.map Expr.erase = done.reverse.map Expr.erase ++ es.map Expr.erase
  | [], _, n, done, hn, ts, tail, stop, layout, hts, ht => by
    obtain ⟨m, rfl⟩ : ∃ m, n = m + 1 := ⟨n - 1, by omega⟩
    obtain rfl := hts.row.nil
    exact yields_arguments_end ht stop layout done ⟨rfl, by simp⟩
  | e :: es, ⟨he, hes⟩, n, done, hn, ts, tail, stop, layout, hts, ht => by
    simp only [Expr.wordsAll, List.length_append, length_inParens] at hn
    obtain ⟨m, rfl⟩ : ∃ m, n = m + 3 := ⟨n - 3, by omega⟩
    have hatom := reads_atom_parens (opens_words e) (reads_operation e he m (by omega))
    obtain ⟨ts₁, ts₂, rfl, h₁, h₂⟩ := hts.append
    have hgoes : startsAtom (Cursor.peek ⟨ts₁ ++ (ts₂ ++ tail), stop, layout⟩) ∧
        ¬ Cursor.atBoundary ⟨ts₁ ++ (ts₂ ++ tail), stop, layout⟩ = true := by
      obtain ⟨l, us, rfl, hl, hin, -⟩ := h₁.cons
      have hk := (word_eq hl).1
      rw [List.cons_append, atBoundary_inner hin]
      exact ⟨by simp [Cursor.peek, startsAtom, hk], by simp⟩
    rw [arguments, List.append_assoc]
    refine yields_get ?_
    rw [if_pos hgoes]
    refine yields_bind ((hatom ts₁ (ts₂ ++ tail) stop layout h₁.row trivial).mono ?_)
    rintro a c ⟨rfl, ha⟩
    refine (yields_arguments es hes (m + 2) (a :: done) (by omega) h₂ ht).mono ?_
    rintro as c ⟨rfl, has⟩
    exact ⟨rfl, has.trans (by simp [ha])⟩

theorem yields_bindings : ∀ (bs : List Binding), bs ≠ [] → Expr.BindsWritable bs →
    ∀ (n : Nat) (col : Int) (done : List Binding), 8 * (Expr.wordsBinds bs).length < n →
    ∀ {ts tail : List Token} {stop : Pos} {layout : List Int}, Inner (Expr.wordsBinds bs) ts →
    (∃ t us, tail = t :: us ∧ t.kind = .kwIn) →
    (bindings n col done).Yields ⟨ts ++ tail, stop, layout⟩ fun cs c =>
      c = ⟨tail, stop, layout⟩ ∧
        cs.map eraseBinding = done.reverse.map eraseBinding ++ bs.map eraseBinding
  | [], hne, _, _, _, _, _, _, _, _, _, _, _ => absurd rfl hne
  | ⟨pos, name, params, strict, body⟩ :: bs, _, ⟨⟨_, _, hstrict, hb⟩, hbs⟩, n, col, done, hn, ts, tail,
      stop, layout, hts, ht => by
    have hlength := length_wordsOf name params body.words
    simp only [Expr.wordsBinds, List.length_append] at hn
    obtain ⟨m, rfl⟩ : ∃ m, n = m + 7 := ⟨n - 7, by omega⟩
    have hbody := reads_operation body hb m (by omega)
    obtain ⟨ts₁, ts₂, rfl, h₁, h₂⟩ := hts.append
    subst hstrict
    cases bs with
    | nil =>
      obtain rfl := Row.nil (Inner.row h₂)
      obtain ⟨t, us, rfl, hk⟩ := ht
      have hstops : Stops (t :: us) := by
        rintro u ⟨⟩
        simp [hk]
      rw [bindings, List.append_nil]
      refine yields_bind ((yields_binding name params false hbody nofun h₁.row hstops).mono ?_)
      rintro b c ⟨rfl, hb⟩
      have hb : eraseBinding b = eraseBinding ⟨pos, name, params, false, body⟩ := hb
      refine yields_peek ?_
      rw [if_neg (by simp [hk]), if_pos hk]
      exact yields_pure ⟨rfl, by simp [hb]⟩
    | cons b' bs =>
      obtain ⟨t, ts₃, rfl, hsemi, -, h₃⟩ := Inner.cons h₂
      have hk := (word_eq hsemi).1
      have hstops : Stops (t :: (ts₃ ++ tail)) := by
        rintro u ⟨⟩
        simp [hk]
      rw [bindings, List.append_assoc, List.cons_append]
      refine yields_bind ((yields_binding name params false hbody nofun h₁.row hstops).mono ?_)
      rintro b c ⟨rfl, hb⟩
      have hb : eraseBinding b = eraseBinding ⟨pos, name, params, false, body⟩ := hb
      refine yields_peek ?_
      rw [if_pos hk]
      refine yields_skip ((yields_bindings (b' :: bs) (by simp) hbs (m + 6) col (b :: done)
        (by omega) h₃ ht).mono ?_)
      rintro cs c ⟨rfl, hcs⟩
      exact ⟨rfl, hcs.trans (by simp [hb])⟩

end

/-! ## Declarations -/

theorem yields_signatureNames : ∀ (xs : List String) (n : Nat) (done : List String),
    xs.length < n → ∀ {ts tail : List Token} {stop : Pos} {layout : List Int},
    Inner (xs.flatMap fun x => [(.comma, ","), (.ident, x)]) ts →
    (∃ t us, tail = t :: us ∧ t.kind = .doubleColon) →
    (signatureNames n done).Yields ⟨ts ++ tail, stop, layout⟩ fun names c =>
      c = ⟨tail, stop, layout⟩ ∧ names = done.reverse ++ xs
  | [], n, done, hn, ts, tail, stop, layout, hts, ht => by
    obtain ⟨m, rfl⟩ : ∃ m, n = m + 1 := ⟨n - 1, by omega⟩
    obtain rfl := hts.row.nil
    obtain ⟨t, us, rfl, hk⟩ := ht
    rw [signatureNames, List.nil_append]
    refine yields_peek ?_
    rw [if_neg (by simp [hk])]
    exact yields_pure ⟨rfl, by simp⟩
  | x :: xs, n, done, hn, ts, tail, stop, layout, hts, ht => by
    obtain ⟨m, rfl⟩ : ∃ m, n = m + 1 := ⟨n - 1, by simp at hn; omega⟩
    obtain ⟨t, ts, rfl, hcomma, -, hts⟩ := Inner.cons hts
    obtain ⟨u, ts, rfl, hident, -, hts⟩ := Inner.cons hts
    obtain ⟨hk, hx⟩ := word_eq hident
    rw [signatureNames]
    refine yields_peek ?_
    rw [if_pos (word_eq hcomma).1]
    refine yields_skip (yields_expect hk ?_)
    refine (yields_signatureNames xs m (u.text :: done) (by simpa using hn) hts ht).mono ?_
    rintro names c ⟨rfl, rfl⟩
    exact ⟨rfl, by simp [hx]⟩

theorem wordsNames_cons (x : String) (xs : List String) :
    Decl.wordsNames (x :: xs) =
      (.ident, x) :: xs.flatMap fun y => [(.comma, ","), (.ident, y)] := by
  induction xs generalizing x with
  | nil => rfl
  | cons y xs ih => simp [Decl.wordsNames, ih]

theorem yields_decl_import {pos : Pos} {mod : String} {ts : List Token}
    (hts : Row (Decl.importing pos mod).words ts) (stop : Pos) :
    decl.Yields ⟨ts, stop, []⟩ fun d c =>
      c = ⟨[], stop, []⟩ ∧ d.erase = (Decl.importing pos mod).erase := by
  obtain ⟨t, ts, rfl, ht, hts⟩ := hts.cons
  obtain ⟨u, ts, rfl, hu, -, hts⟩ := hts.cons
  obtain rfl := hts.row.nil
  obtain ⟨hk, hx⟩ := word_eq hu
  rw [decl]
  refine yields_get ?_
  have hkind : (Cursor.peek ⟨[t, u], stop, []⟩).kind = .kwImport := (word_eq ht).1
  simp only [hkind]
  exact yields_skip (yields_expect hk (yields_pure ⟨rfl, by rw [hx]; rfl⟩))

theorem yields_decl_signature {pos : Pos} {names : List String} {type : TypeExpr} (hne : names ≠ [])
    (htype : type.Writable) {ts : List Token} (hts : Row (Decl.signature pos names type).words ts)
    (stop : Pos) : decl.Yields ⟨ts, stop, []⟩ fun d c =>
      c = ⟨[], stop, []⟩ ∧ d.erase = (Decl.signature pos names type).erase := by
  cases names with
  | nil => exact absurd rfl hne
  | cons x xs =>
    rw [Decl.words, wordsNames_cons] at hts
    obtain ⟨t, ts, rfl, ht, hts⟩ := hts.cons
    obtain ⟨ts₁, ts₂, rfl, h₁, h₂⟩ := hts.append
    obtain ⟨u, ts₃, rfl, hu, -, h₃⟩ := h₂.cons
    obtain ⟨hk, hx⟩ := word_eq ht
    have hk' := (word_eq hu).1
    -- behind the first name stands a comma or the sign
    have hsecond : (Cursor.peekSecond ⟨t :: (ts₁ ++ u :: ts₃), stop, []⟩).kind = .comma ∨
        (Cursor.peekSecond ⟨t :: (ts₁ ++ u :: ts₃), stop, []⟩).kind = .doubleColon := by
      cases xs with
      | nil =>
        obtain rfl := h₁.row.nil
        exact .inr hk'
      | cons y ys =>
        obtain ⟨v, vs, rfl, hv, -⟩ := Inner.cons h₁
        exact .inl (word_eq hv).1
    have hlength : xs.length < fuel ⟨ts₁ ++ u :: ts₃, stop, []⟩ := by
      have := h₁.row.length
      simp only [List.length_flatMap, List.length_cons, List.length_nil, List.map_const',
        List.sum_replicate_nat] at this
      simp only [fuel, List.length_append, this]
      omega
    obtain ⟨m, hm, hle⟩ : ∃ m, fuel ⟨ts₃, stop, []⟩ = m + 2 ∧ 8 * type.words.length ≤ m := by
      have := h₃.row.length
      rw [length_inParens] at this
      refine ⟨8 * ts₃.length + 6, by simp only [fuel]; omega, by omega⟩
    have htypes := reads_typeExpr_atom (t := type) (by simp [inParens])
      (reads_typeAtom_parens (opensType_words type) (reads_typeExpr type htype m hle))
    have hparsed := htypes ts₃ [] stop [] h₃.row (by rintro _ ⟨⟩)
    rw [List.append_nil] at hparsed
    rw [decl]
    refine yields_get ?_
    have hkind : (Cursor.peek ⟨t :: (ts₁ ++ u :: ts₃), stop, []⟩).kind = .ident := hk
    simp only [hkind]
    rw [if_pos hsecond, signature]
    refine yields_expect hk (yields_get (yields_bind ((yields_signatureNames xs _ [t.text] hlength h₁
      ⟨u, ts₃, rfl, hk'⟩).mono ?_)))
    rintro names c ⟨rfl, rfl⟩
    refine yields_expect hk' (yields_get ?_)
    rw [hm]
    refine yields_bind (hparsed.mono ?_)
    rintro type' c ⟨rfl, htype'⟩
    exact yields_pure ⟨rfl, by simp [Decl.erase, htype', hx]⟩

theorem yields_decl_binding {b : Binding} (hs : b.strict = true → b.params = [])
    (hb : b.body.Writable) {ts : List Token} (hts : Row (Decl.binding b).words ts) (stop : Pos) :
    decl.Yields ⟨ts, stop, []⟩ fun d c =>
      c = ⟨[], stop, []⟩ ∧ d.erase = (Decl.binding b).erase := by
  obtain ⟨pos, name, params, strict, body⟩ := b
  have hread : ∀ {us : List Token}, Row (BindingOf.wordsOf name params body.words) us →
      ∀ {n : Nat}, 8 * us.length ≤ n →
      (binding n strict).Yields ⟨us, stop, []⟩ fun b c => c = ⟨[], stop, []⟩ ∧
        (Decl.binding b).erase = (Decl.binding ⟨pos, name, params, strict, body⟩).erase := by
    intro us hus n hn
    have hlength := length_wordsOf name params body.words
    rw [← hus.length] at hlength
    obtain ⟨m, rfl⟩ : ∃ m, n = m + 6 := ⟨n - 6, by omega⟩
    rw [← List.append_nil us]
    refine (yields_binding name params strict (reads_operation body hb m (by omega)) hs hus
      stops_nil).mono ?_
    rintro b c ⟨rfl, hb⟩
    exact ⟨rfl, congrArg Decl.binding hb⟩
  cases strict with
  | true =>
    obtain ⟨t, ts, rfl, ht, hts⟩ := hts.cons
    rw [decl]
    refine yields_get ?_
    have hkind : (Cursor.peek ⟨t :: ts, stop, []⟩).kind = .bang := (word_eq ht).1
    simp only [hkind]
    refine yields_skip (yields_bind ((hread hts.row (by simp [fuel]; omega)).mono ?_))
    rintro b c ⟨rfl, hb⟩
    exact yields_pure ⟨rfl, hb⟩
  | false =>
    have hts : Row (BindingOf.wordsOf name params body.words) ts := hts
    have hall := hread hts (n := fuel ⟨ts, stop, []⟩) (by simp [fuel])
    obtain ⟨t, us, rfl, ht, hus⟩ := hts.cons
    -- what follows the name tells the binding from a signature
    have hsecond : ¬ ((Cursor.peekSecond ⟨t :: us, stop, []⟩).kind = .comma ∨
        (Cursor.peekSecond ⟨t :: us, stop, []⟩).kind = .doubleColon) := by
      obtain ⟨u, vs, rfl, hu⟩ : ∃ u vs, us = u :: vs ∧ u.kind ∈ [.equals, .ident, .lparen] := by
        cases params with
        | nil =>
          obtain ⟨u, vs, rfl, hu, -⟩ := Inner.cons hus
          exact ⟨u, vs, rfl, by simp [(word_eq hu).1]⟩
        | cons q ps =>
          cases q with
          | named x =>
            obtain ⟨u, vs, rfl, hu, -⟩ := Inner.cons hus
            exact ⟨u, vs, rfl, by simp [(word_eq hu).1]⟩
          | unit =>
            obtain ⟨u, vs, rfl, hu, -⟩ := Inner.cons hus
            exact ⟨u, vs, rfl, by simp [(word_eq hu).1]⟩
      change ¬ (u.kind = .comma ∨ u.kind = .doubleColon)
      simp only [List.mem_cons, List.not_mem_nil, or_false] at hu
      rcases hu with hu | hu | hu <;> simp [hu]
    rw [decl]
    refine yields_get ?_
    have hkind : (Cursor.peek ⟨t :: us, stop, []⟩).kind = .ident := (word_eq ht).1
    simp only [hkind]
    rw [if_neg hsecond]
    refine yields_bind (hall.mono ?_)
    rintro b c ⟨rfl, hb⟩
    exact yields_pure ⟨rfl, hb⟩

theorem yields_decl {d : Decl} (hd : d.Writable) {ts : List Token} (hts : Row d.words ts)
    (stop : Pos) : decl.Yields ⟨ts, stop, []⟩ fun d' c => c = ⟨[], stop, []⟩ ∧ d'.erase = d.erase := by
  cases d with
  | importing pos mod => exact yields_decl_import hts stop
  | signature pos names type => exact yields_decl_signature hd.1 hd.2.2 hts stop
  | binding b => exact yields_decl_binding hd.2.2.1 hd.2.2.2 hts stop

end Grammar

/-! ## Whole texts -/

namespace Reader

theorem runAll_of_yields {α : Type} {r : Reader α} {toks : List Token} {stop : Pos} {P : α → Prop}
    (h : r.Yields ⟨toks, stop, []⟩ fun a c => c = ⟨[], stop, []⟩ ∧ P a) :
    ∃ a, r.runAll toks stop = .ok a ∧ P a := by
  obtain ⟨a, c, hr, rfl, ha⟩ := h
  exact ⟨a, runAll_ok.mpr ⟨_, hr, rfl⟩, ha⟩

end Reader

namespace Item

open Grammar

theorem leadsToDecl_params {tail : List Token} (ps : List Param) : ∀ {ts : List Token},
    Inner (ps.flatMap Param.words) ts → leadsToDecl (ts ++ tail) = leadsToDecl tail := by
  induction ps with
  | nil =>
    intro ts hts
    obtain rfl := hts.row.nil
    rfl
  | cons p ps ih =>
    intro ts hts
    cases p with
    | named x =>
      obtain ⟨t, ts, rfl, ht, -, hts⟩ := Inner.cons hts
      rw [List.cons_append, leadsToDecl.eq_def]
      simp only [(word_eq ht).1]
      exact ih hts
    | unit =>
      obtain ⟨l, ts, rfl, hl, -, hts⟩ := Inner.cons hts
      obtain ⟨r, ts, rfl, hr, -, hts⟩ := Inner.cons hts
      rw [List.cons_append, List.cons_append, leadsToDecl.eq_def]
      simp only [(word_eq hl).1]
      rw [if_pos (word_eq hr).1]
      exact ih hts

theorem leadsToDecl_names {tail : List Token} (xs : List String) : ∀ {ts : List Token},
    Inner (xs.flatMap fun x => [(.comma, ","), (.ident, x)]) ts →
      leadsToDecl (ts ++ tail) = leadsToDecl tail := by
  induction xs with
  | nil =>
    intro ts hts
    obtain rfl := hts.row.nil
    rfl
  | cons x xs ih =>
    intro ts hts
    obtain ⟨t, ts, rfl, ht, -, hts⟩ := Inner.cons hts
    obtain ⟨u, ts, rfl, hu, -, hts⟩ := Inner.cons hts
    rw [List.cons_append, List.cons_append, leadsToDecl.eq_def]
    simp only [(word_eq ht).1]
    rw [leadsToDecl.eq_def]
    simp only [(word_eq hu).1]
    exact ih hts

theorem leadsToDecl_sign {t : Token} {ts : List Token} (h : t.kind = .equals ∨ t.kind = .doubleColon) :
    leadsToDecl (t :: ts) = true := by
  rw [leadsToDecl.eq_def]
  rcases h with h | h <;> simp [h]

theorem first_of_row {w : Token.Word} {ws : List Token.Word} {i : Item} (h : Row (w :: ws) i.toks) :
    i.first.kind = w.1 ∧ Inner ws i.rest := by
  obtain ⟨t, ts, ⟨⟩, ht, hts⟩ := h.cons
  exact ⟨congrArg Prod.fst ht, hts⟩

theorem isDecl_line {d : Decl} (hd : d.Writable) {i : Item} (hi : Row d.words i.toks) :
    i.isDecl = true ∧ i.first.kind ≠ .kwModule := by
  unfold isDecl
  match d with
  | .importing _ mod =>
    obtain ⟨hk, -⟩ := first_of_row hi
    simp [hk]
  | .signature _ names type =>
    obtain ⟨hne, -, -⟩ := hd
    cases names with
    | nil => exact absurd rfl hne
    | cons x xs =>
      rw [Decl.words, wordsNames_cons] at hi
      obtain ⟨hk, hrest⟩ := first_of_row hi
      obtain ⟨ts₁, ts₂, he, h₁, h₂⟩ := Inner.append hrest
      obtain ⟨u, ts₃, rfl, hu, -⟩ := h₂.cons
      simp only [hk]
      rw [he, leadsToDecl_names xs h₁, leadsToDecl_sign (.inr (word_eq hu).1)]
      simp
  | .binding ⟨_, name, params, strict, body⟩ =>
    cases strict with
    | true =>
      obtain ⟨-, -, hs, -⟩ := hd
      obtain rfl : params = [] := hs rfl
      obtain ⟨hk, hrest⟩ := first_of_row hi
      obtain ⟨u, ts, he, hu, -, hts⟩ := Inner.cons hrest
      obtain ⟨v, ts, rfl, hv, -⟩ := Inner.cons hts
      simp only [hk]
      rw [he]
      simp only
      rw [leadsToDecl_sign (.inl (word_eq hv).1)]
      simp [(word_eq hu).1]
    | false =>
      obtain ⟨hk, hrest⟩ := first_of_row hi
      obtain ⟨ts₁, ts₂, he, h₁, h₂⟩ := Inner.append hrest
      obtain ⟨u, ts₃, rfl, hu, -⟩ := h₂.cons
      simp only [hk]
      rw [he, leadsToDecl_params params h₁, leadsToDecl_sign (.inl (word_eq hu).1)]
      simp

theorem isDecl_of_lines {ds : List Decl} {items : List Item} (hd : ∀ d ∈ ds, d.Writable)
    (h : List.Forall₂ Item.Line (ds.map Decl.words) items) :
    ∀ i ∈ items, i.isDecl = true ∧ i.first.kind ≠ .kwModule := by
  induction ds generalizing items with
  | nil =>
    cases h
    nofun
  | cons d ds ih =>
    cases h with
    | cons hi hitems =>
      exact List.forall_mem_cons.mpr ⟨isDecl_line (hd d List.mem_cons_self) hi.line,
        ih (fun d' hd' => hd d' (List.mem_cons_of_mem _ hd')) hitems⟩

theorem isDecl_expr (e : Expr) {i : Item} (hi : Row e.words i.toks) :
    i.isDecl = false ∧ i.first.kind ≠ .kwModule := by
  unfold isDecl
  cases e with
  | var _ name =>
    obtain ⟨hk, hrest⟩ := first_of_row hi
    have he : i.rest = [] := hrest.row.nil
    simp [hk, he, leadsToDecl]
  | _ =>
    obtain ⟨hk, -⟩ := first_of_row hi
    simp [hk, Token.Word.lparen]

theorem decls_of_lines {ds : List Decl} {items : List Item} (hd : ∀ d ∈ ds, d.Writable)
    (h : List.Forall₂ Item.Line (ds.map Decl.words) items) :
    ∃ ds' : List Decl, items.map Item.decl = ds'.map .ok ∧ ds'.map Decl.erase = ds.map Decl.erase := by
  induction ds generalizing items with
  | nil =>
    cases h
    exact ⟨[], rfl, rfl⟩
  | cons d ds ih =>
    cases h with
    | @cons _ i _ items hi hitems =>
      obtain ⟨ds', hread, herase⟩ := ih (fun d' hd' => hd d' (List.mem_cons_of_mem _ hd')) hitems
      obtain ⟨d', hone, hd'⟩ := Reader.runAll_of_yields
        (yields_decl (hd d List.mem_cons_self) hi.line i.stop)
      refine ⟨d' :: ds', ?_, by simp [hd', herase]⟩
      rw [List.map_cons, hread, List.map_cons]
      exact congrArg (· :: _) hone

end Item

theorem Decl.words_ne_nil {d : Decl} (hd : d.Writable) : d.words ≠ [] := by
  match d with
  | .importing .. => simp [words]
  | .signature _ names type => simp [words]
  | .binding ⟨_, _, _, strict, _⟩ => simp [words, BindingOf.wordsOf]

/-- Lines of words and declarations come back as items. -/
theorem Lexed.ofText_decls (source : String) (rows : List (List Token.Word)) {ds : List Decl}
    (hd : ∀ d ∈ ds, d.Writable) (hr : ∀ ws ∈ rows, ws ≠ [] ∧ LexAll ws) : ∃ items stop,
      Lexed.ofText source (String.ofList (Decl.lines (rows ++ ds.map Decl.words))) =
        .ok ⟨items.flatMap Item.toks, stop⟩ ∧
      List.Forall₂ Item.Line (rows ++ ds.map Decl.words) items := by
  refine Lexed.ofText_lines source ?_ ?_
  · intro ws hws
    rcases List.mem_append.mp hws with hws | hws
    · exact (hr ws hws).1
    · obtain ⟨d, hdm, rfl⟩ := List.mem_map.mp hws
      exact Decl.words_ne_nil (hd d hdm)
  · intro ws hws
    rcases List.mem_append.mp hws with hws | hws
    · exact (hr ws hws).2
    · obtain ⟨d, hdm, rfl⟩ := List.mem_map.mp hws
      exact Decl.lexes_words (hd d hdm)

theorem Item.cut_of_lines {rows : List (List Token.Word)} {items : List Item}
    (h : List.Forall₂ Item.Line rows items) : ∀ i ∈ items, i.Cut := by
  induction h with
  | nil => nofun
  | cons hi _ ih => exact List.forall_mem_cons.mpr ⟨hi.toCut, ih⟩

namespace Printed

theorem ofTokens_module (source : String) {m : Module} (hm : m.Writable) : ∃ lexed t ts m',
    Lexed.ofText source m.printed = .ok lexed ∧ lexed.tokens = t :: ts ∧ t.kind = .kwModule ∧
      Module.ofTokens source lexed.tokens lexed.stop = .ok m' ∧ m'.erase = m.erase := by
  obtain ⟨hname, hd⟩ := hm
  have hheader : ∀ ws ∈ [m.header], ws ≠ [] ∧ LexAll ws := by
    intro ws hws
    obtain rfl := List.mem_singleton.mp hws
    exact ⟨by simp [Module.header], lexAll_cons (.keyword (by decide)) (lexAll_cons hname
      (lexAll_one (.keyword (by decide))))⟩
  obtain ⟨items, stop, hlex, hlines⟩ := Lexed.ofText_decls source _ hd hheader
  cases hlines with
  | @cons _ i _ items hi hitems =>
    obtain ⟨t₁, _, htoks, h₁, hrest⟩ := hi.line.cons
    obtain ⟨t₂, _, rfl, h₂, -, hrest⟩ := hrest.cons
    obtain ⟨t₃, _, rfl, h₃, -, hrest⟩ := hrest.cons
    obtain rfl := hrest.row.nil
    obtain ⟨ds, hread, herase⟩ := Item.decls_of_lines hd hitems
    have htokens : (i :: items).flatMap Item.toks = t₁ :: t₂ :: t₃ :: items.flatMap Item.toks := by
      simp [htoks]
    refine ⟨_, t₁, _, ⟨t₁.pos, t₂.text, ds⟩, hlex, htokens, (word_eq h₁).1, ?_, ?_⟩
    · unfold Module.ofTokens
      rw [htokens, Grammar.run_moduleHeader (word_eq h₁).1 (word_eq h₂).1 (word_eq h₃).1]
      simp only [Item.split_flatMap (Item.cut_of_lines hitems), Decl.ofItems_eq source hread]
      rfl
    · simp [Module.erase, herase, (word_eq h₂).2]

theorem ofText_module (source : String) {m : Module} (hm : m.Writable) :
    (Module.ofText source m.printed).map Module.erase = .ok m.erase := by
  obtain ⟨⟨tokens, stop⟩, t, ts, m', hlex, rfl, hk, hread, herase⟩ := ofTokens_module source hm
  unfold Module.ofText
  rw [hlex]
  simp only [if_pos hk, hread]
  exact congrArg Except.ok herase

theorem ofText_definitions (source : String) {ds : List Decl} (hd : ∀ d ∈ ds, d.Writable) :
    (Fragment.ofText source (Decl.printed ds)).map Fragment.erase =
      .ok (.definitions (ds.map Decl.erase)) := by
  obtain ⟨items, stop, hlex, hlines⟩ := Lexed.ofText_decls source [] hd nofun
  rw [List.nil_append] at hlex hlines
  obtain ⟨ds', hread, herase⟩ := Item.decls_of_lines hd hlines
  have hdecls := Item.isDecl_of_lines hd hlines
  unfold Fragment.ofText Decl.printed
  rw [hlex]
  cases items with
  | nil =>
    cases ds with
    | nil => rfl
    | cons => cases hlines
  | cons i items =>
    have htokens : (i :: items).flatMap Item.toks = i.first :: (i.rest ++ items.flatMap Item.toks) := by
      simp [Item.toks]
    have hall : (i :: items).all (·.isDecl) = true :=
      List.all_eq_true.mpr fun j hj => (hdecls j hj).1
    rw [htokens]
    simp only [if_neg (hdecls i List.mem_cons_self).2]
    rw [← htokens, Item.split_flatMap (Item.cut_of_lines hlines), Fragment.ofItems, if_pos hall,
      Decl.ofItems_eq source hread]
    exact congrArg (fun ds => Except.ok (Fragment.definitions ds)) herase

theorem ofText_expression (source : String) {e : Expr} (he : e.Writable) :
    (Fragment.ofText source e.printed).map Fragment.erase = .ok (.expression e.erase) := by
  obtain ⟨stop, hlex⟩ := Lexed.ofText_place source (Token.Word.cuts_line (Expr.lexes_words e he))
  obtain ⟨w, ws, hw⟩ : ∃ w ws, e.words = w :: ws := by
    cases e <;> exact ⟨_, _, rfl⟩
  obtain ⟨ts, _, hplace, hts⟩ := place_line [] w ws .start
  let i : Item := ⟨⟨w.1, w.2, .start, true⟩, ts⟩
  have htokens : Lexeme.place .start true (Token.Word.lexemes e.words) = i.toks := by
    rw [hw, ← List.append_nil (Token.Word.lexemes (w :: ws)), hplace]
    exact List.append_nil _
  have hrow : Row e.words i.toks := by
    rw [hw]
    exact ⟨by simp [i, Item.toks, Token.word, hts.words], hts.inside⟩
  have hcut : i.Cut := ⟨by simp [i, Item.startsItem, Pos.start], fun t ht => by
    simp [Item.startsItem, hts.inside t ht]⟩
  have hsplit : Item.split ([i].flatMap Item.toks) = [i] :=
    Item.split_flatMap (by simpa using hcut)
  rw [List.flatMap_singleton] at hsplit
  obtain ⟨hdecl, hkind⟩ := Item.isDecl_expr e hrow
  obtain ⟨e', hread, herase⟩ : ∃ e', Grammar.expr.runAll i.toks stop = .ok e' ∧
      e'.erase = e.erase := by
    refine Reader.runAll_of_yields (Reader.yields_get ?_)
    have hoperation := Grammar.reads_operation e he (Grammar.fuel ⟨i.toks, stop, []⟩)
      (by simp [Grammar.fuel, hrow.length]) i.toks [] stop [] hrow
      Grammar.stops_nil
    rwa [List.append_nil] at hoperation
  unfold Fragment.ofText Expr.printed
  rw [hlex, htokens]
  simp only [Item.toks, if_neg hkind]
  rw [← Item.toks, hsplit, Fragment.ofItems, if_neg (by simp [hdecl]), if_neg (by simp [hdecl]), hread]
  exact congrArg (fun e => Except.ok (Fragment.expression e)) herase

/-- **Reading undoes printing.** The bytes of a writable module are read as this module, but for the
places in it. The bytes of its declarations and of an expression are told apart and read as these. -/
theorem read_back (source : String) :
    (∀ m : Module, m.Writable →
      (Module.ofBytes source (Text.bytes m.printed)).map Module.erase = .ok m.erase) ∧
    (∀ ds : List Decl, (∀ d ∈ ds, d.Writable) →
      (Fragment.ofBytes source (Text.bytes (Decl.printed ds))).map Fragment.erase =
        .ok (.definitions (ds.map Decl.erase))) ∧
    ∀ e : Expr, e.Writable →
      (Fragment.ofBytes source (Text.bytes e.printed)).map Fragment.erase = .ok (.expression e.erase) :=
  ⟨fun m hm => by rw [Module.ofBytes_bytes, ofText_module source hm],
    fun ds hd => by rw [Fragment.ofBytes_bytes, ofText_definitions source hd],
    fun e he => by rw [Fragment.ofBytes_bytes, ofText_expression source he]⟩

/-- A block with a function in it, a section, a minus sign and a text that needs escapes. -/
theorem read_back_block :
    let e : Expr := .letIn .start [⟨.start, "f", [.named "x"], false, .negate .start (.var .start "x")⟩]
      (.app (.operator .start .append) [.str .start "\"\n", .app (.var .start "f") [.int .start 1]])
    let type : TypeExpr := .arrow (.app (.con .start "List") [.var .start "a"]) (.unit .start)
    let ds : List Decl := [.importing .start "A.B", .signature .start ["u", "v"] type,
      .binding ⟨.start, "u", [], true, .qualified .start "A.B" "v"⟩]
    (Module.ofBytes "m" (Text.bytes (Module.printed ⟨.start, "M", ds⟩))).map Module.erase =
      .ok (Module.erase ⟨.start, "M", ds⟩) ∧
    (Fragment.ofBytes "m" (Text.bytes (Decl.printed ds))).map Fragment.erase =
      .ok (.definitions (ds.map Decl.erase)) ∧
    (Fragment.ofBytes "m" (Text.bytes e.printed)).map Fragment.erase = .ok (.expression e.erase) := by
  intro e type ds
  have hident : ∀ x ∈ ["f", "x", "u", "v", "a"], IsIdent x := by
    unfold IsIdent Token.Word.Lexes
    decide +kernel
  have hconid : ∀ x ∈ ["A.B", "List", "M"], IsConid x := by
    unfold IsConid Token.Word.Lexes
    decide +kernel
  have he : e.Writable := by
    simp only [List.forall_mem_cons] at hident
    simp [e, Expr.Writable, Expr.AllWritable, Expr.BindsWritable, Param.Writable, hident]
  have hd : ∀ d ∈ ds, d.Writable := by
    simp only [List.forall_mem_cons] at hident hconid
    simp [ds, type, Decl.Writable, TypeExpr.Writable, TypeExpr.AllWritable, Expr.Writable, hident,
      hconid]
  obtain ⟨hmodule, hdefinitions, hexpression⟩ := read_back "m"
  exact ⟨hmodule _ ⟨hconid "M" (by simp), hd⟩, hdefinitions ds hd, hexpression e he⟩

/-- A literal of the byte FF is read as another text, and in a block no binding is read as strict: with
a mark it is refused, without one it is read as lazy. -/
theorem read_back_replaced :
    let e : Expr := .letIn .start [⟨.start, "y", [], true, .int .start 1⟩] (.var .start "y")
    (Fragment.ofBytes "m" [0x22, 0xFF, 0x22]).map Fragment.erase =
        .ok (.expression (.str .start "\uFFFD")) ∧ Text.bytes "\uFFFD" ≠ [0xFF] ∧
      Fragment.ofBytes "m" (Text.bytes "let !y = (1) in (y)") =
        .error [⟨"m", ⟨1, 5⟩, .expected "a binding after 'let'" ⟨.bang, "!", ⟨1, 5⟩, false⟩⟩] ∧
      (Fragment.ofBytes "m" (Text.bytes e.printed)).map Fragment.erase ≠ .ok (.expression e.erase) := by
  intro e
  refine ⟨?_, by decide +kernel, ?_, fun h => ?_⟩
  · have hchars : String.ofList (Text.runes [0x22, 0xFF, 0x22]) = Expr.printed (.str .start "\uFFFD") := by
      decide +kernel
    rw [Fragment.ofBytes, hchars]
    exact ofText_expression "m" (e := .str .start "\uFFFD") trivial
  · have hread : (Fragment.ofBytes "m" (Text.bytes "let !y = (1) in (y)")).map (fun _ => ()) =
        .error [⟨"m", ⟨1, 5⟩, .expected "a binding after 'let'" ⟨.bang, "!", ⟨1, 5⟩, false⟩⟩] := by
      decide +kernel
    cases hf : Fragment.ofBytes "m" (Text.bytes "let !y = (1) in (y)") with
    | error es =>
      rw [hf] at hread
      cases hread
      rfl
    | ok f =>
      rw [hf] at hread
      cases hread
  · let lazy : Expr := .letIn .start [⟨.start, "y", [], false, .int .start 1⟩] (.var .start "y")
    have hident : IsIdent "y" := by
      unfold IsIdent Token.Word.Lexes
      decide +kernel
    have hlazy : lazy.Writable := by simp [lazy, Expr.Writable, Expr.BindsWritable, hident]
    have hread := ofText_expression "m" hlazy
    rw [Fragment.ofBytes_bytes] at h
    cases hread.symm.trans h

end Printed

end LazySession

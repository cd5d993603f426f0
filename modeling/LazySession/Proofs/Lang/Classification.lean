import LazySession.Proofs.Lang.Drawing
import LazySession.Proofs.Lang.Places

/-!
# What is a declaration and what an expression

Before an item is read, a scan of its leading tokens tells which of the two it is. The scan agrees with
the grammar: `Item.isDecl_of_decl` and `Item.isDecl_of_expr`. So what a text is taken for can be said
without the scan, as far as its items can be read: `Fragment.classified`.
-/

namespace LazySession

namespace Grammar

open Reader

variable {c d : Cursor}

/-! ## What a declaration starts with -/

theorem leadsToDecl_end {t : Token} (ht : t.kind = .equals ∨ t.kind = .doubleColon)
    (ts : List Token) : Item.leadsToDecl (t :: ts) = true := by
  rw [Item.leadsToDecl.eq_def]
  rcases ht with ht | ht <;> simp only [ht]

theorem leadsToDecl_name {t : Token} (ht : t.kind = .ident ∨ t.kind = .comma) (ts : List Token) :
    Item.leadsToDecl (t :: ts) = Item.leadsToDecl ts := by
  rw [Item.leadsToDecl.eq_def]
  rcases ht with ht | ht <;> simp only [ht]

theorem leadsToDecl_unit {t u : Token} (ht : t.kind = .lparen) (hu : u.kind = .rparen)
    (ts : List Token) : Item.leadsToDecl (t :: u :: ts) = Item.leadsToDecl ts := by
  rw [Item.leadsToDecl.eq_def]
  simp only [ht]
  rw [if_pos hu]

theorem leadsToDecl_of_params (done : List Param) (toks : List Token) {t : Token} {ts : List Token}
    (h : (paramsFrom done toks).2 = t :: ts) (ht : t.kind = .equals) :
    Item.leadsToDecl toks = true := by
  fun_induction paramsFrom done toks with
  | case1 => cases h
  | case2 done u us hu ih => exact (leadsToDecl_name (.inl hu) us).trans (ih h)
  | case3 done u hu =>
    cases h
    exact leadsToDecl_end (.inl ht) []
  | case4 done u hu v vs hunit ih => exact (leadsToDecl_unit hunit.1 hunit.2 vs).trans (ih h)
  | case5 done u hu v vs hunit =>
    cases h
    exact leadsToDecl_end (.inl ht) _

theorem leadsToDecl_of_names (n : Nat) : ∀ {done names : List String} {c : Cursor},
    (signatureNames n done).run c = .ok (names, d) → d.peek.kind = .doubleColon →
    Item.leadsToDecl c.toks = true := by
  induction n with
  | zero => intro done names c h; exact absurd h (exhausted_fails c)
  | succ n ih =>
    intro done names c h hd
    rw [signatureNames, run_bind, run_peek] at h
    simp only at h
    split at h
    · rename_i hcomma
      obtain ⟨_, c₁, hskip, h⟩ := bind_ok h
      cases hskip
      obtain ⟨x, c₂, hx, h⟩ := bind_ok h
      obtain ⟨ts, hts, hk, rfl⟩ := expect_cons (by simp) hx
      rw [toks_eq_advance (by simp [hcomma]), hts, List.singleton_append,
        leadsToDecl_name (.inr hcomma), leadsToDecl_name (.inl hk)]
      exact ih h hd
    · cases h
      rw [toks_eq_advance (by simp [hd])]
      exact leadsToDecl_end (.inr hd) _

theorem leadsToDecl_of_binding {n : Nat} {strict : Bool} {b : Binding}
    (h : (binding n strict).run c = .ok (b, d)) :
    ∃ x ts, c.toks = x :: ts ∧ x.kind = .ident ∧ Item.leadsToDecl ts = true := by
  cases n with
  | zero => exact absurd h (exhausted_fails c)
  | succ n =>
    rw [binding] at h
    obtain ⟨x, c₁, hx, h⟩ := bind_ok h
    obtain ⟨ts, hts, hk, rfl⟩ := expect_cons (by simp) hx
    obtain ⟨ps, c₂, hps, h⟩ := bind_ok h
    rw [run_params] at hps
    cases hps
    obtain ⟨eq, c₃, heq, -⟩ := bind_ok h
    obtain ⟨us, hus, hequals, -⟩ := expect_cons (by simp) heq
    exact ⟨x, ts, hts, hk, leadsToDecl_of_params [] ts hus hequals⟩

theorem leadsToDecl_of_signature {decl : Decl} (h : signature.run c = .ok (decl, d)) :
    ∃ x ts, c.toks = x :: ts ∧ x.kind = .ident ∧ Item.leadsToDecl ts = true := by
  rw [signature] at h
  obtain ⟨x, c₁, hx, h⟩ := bind_ok h
  obtain ⟨ts, hts, hk, rfl⟩ := expect_cons (by simp) hx
  obtain ⟨_, c₂, hget, h⟩ := bind_ok h
  cases hget
  obtain ⟨names, c₃, hnames, h⟩ := bind_ok h
  exact ⟨x, ts, hts, hk, leadsToDecl_of_names _ hnames (expect_ok h)⟩

end Grammar

/-! ## Items -/

namespace Item

open Grammar

variable {i : Item} {stop : Pos} {d : Decl} {e : Expr}

theorem isDecl_of_decl (h : Grammar.decl.runAll i.toks stop = .ok d) : i.isDecl = true := by
  obtain ⟨c, h, -⟩ := Reader.runAll_ok.mp h
  obtain ⟨t, ts⟩ := i
  obtain ⟨_, c₁, hget, h⟩ := Reader.bind_ok h
  cases hget
  have hpeek : (Cursor.peek ⟨toks ⟨t, ts⟩, stop, []⟩) = t := rfl
  simp only [hpeek] at h
  split at h
  · rename_i hk
    simp [isDecl, hk]
  · rename_i hk
    obtain ⟨_, c₂, hskip, h⟩ := Reader.bind_ok h
    cases hskip
    obtain ⟨b, c₃, hb, -⟩ := Reader.bind_ok h
    obtain ⟨x, us, hus, hx, hleads⟩ := leadsToDecl_of_binding hb
    obtain rfl : ts = x :: us := hus
    simp [isDecl, hk, hx, hleads]
  · rename_i hk
    have hname : ∃ x us, toks ⟨t, ts⟩ = x :: us ∧ x.kind = .ident ∧ leadsToDecl us = true := by
      split at h
      · exact leadsToDecl_of_signature h
      · obtain ⟨b, c₂, hb, -⟩ := Reader.bind_ok h
        exact leadsToDecl_of_binding hb
    obtain ⟨x, us, hus, -, hleads⟩ := hname
    cases hus
    simp [isDecl, hk, hleads]
  · cases h

theorem isDecl_of_expr (h : Grammar.expr.runAll i.toks stop = .ok e) :
    i.isDecl = false ∧ i.first.kind ≠ .kwModule := by
  obtain ⟨c, h, hend⟩ := Reader.runAll_ok.mp h
  rw [run_expr] at h
  exact isDecl_of_operation h hend

theorem kind_of_isDecl (h : i.isDecl = true) : i.first.kind ≠ .kwModule := by
  intro hk
  simp [isDecl, hk] at h

theorem exists_split (t : Token) (ts : List Token) : ∃ i ∈ split (t :: ts), i.first = t := by
  have htoks := toks_split (t :: ts)
  cases hs : split (t :: ts) with
  | nil =>
    rw [hs] at htoks
    cases htoks
  | cons i is =>
    rw [hs, List.flatMap_cons] at htoks
    exact ⟨i, List.mem_cons_self, (List.cons.inj htoks).1⟩

end Item

/-! ## Texts -/

namespace Fragment

variable {source text : String} {x : Lexed}

theorem definitions_of_items (h : Lexed.ofText source text = .ok x) {ds : List Decl}
    (hds : (Item.split x.tokens).map Item.decl = ds.map .ok) :
    ofText source text = .ok (.definitions ds) := by
  obtain ⟨toks, stop⟩ := x
  have hdecl : ∀ i ∈ Item.split toks, i.isDecl = true := by
    intro i hi
    have hmem : i.decl ∈ ds.map .ok := hds ▸ List.mem_map_of_mem hi
    obtain ⟨d, -, hd⟩ := List.mem_map.mp hmem
    exact Item.isDecl_of_decl hd.symm
  have hitems : Decl.ofItems source (Item.split toks) = .ok ds := Decl.ofItems_ok.mpr hds
  unfold ofText
  rw [h]
  cases toks with
  | nil =>
    obtain rfl : ds = [] := List.map_eq_nil_iff.mp hds.symm
    rfl
  | cons t ts =>
    obtain ⟨i, hi, rfl⟩ := Item.exists_split t ts
    simp only [if_neg (Item.kind_of_isDecl (hdecl i hi))]
    rw [ofItems, if_pos (List.all_eq_true.mpr hdecl), hitems]
    rfl

/-- A text that is read as an expression becomes one if no item is taken for a declaration. -/
theorem expression_of_expr (h : Lexed.ofText source text = .ok x) {e : Expr}
    (he : Grammar.expr.runAll x.tokens x.stop = .ok e ∧
      ∀ i ∈ Item.split x.tokens, i.isDecl = false) :
    ofText source text = .ok (.expression e) := by
  obtain ⟨toks, stop⟩ := x
  obtain ⟨he, hdecl⟩ := he
  unfold ofText
  rw [h]
  cases toks with
  | nil =>
    obtain ⟨c, hrun, -⟩ := Reader.runAll_ok.mp he
    rw [Grammar.run_expr] at hrun
    exact absurd hrun (Grammar.operation_nil rfl _ 0)
  | cons t ts =>
    have hk : t.kind ≠ .kwModule := (Item.isDecl_of_expr (i := ⟨t, ts⟩) he).2
    obtain ⟨i, hi, -⟩ := Item.exists_split t ts
    have hall : ¬ (Item.split (t :: ts)).all (·.isDecl) = true := fun hall => by
      rw [List.all_eq_true] at hall
      exact absurd (hall i hi) (by simp [hdecl i hi])
    have hany : ¬ (Item.split (t :: ts)).any (·.isDecl) = true := fun hany => by
      obtain ⟨j, hj, hdj⟩ := List.any_eq_true.mp hany
      exact absurd hdj (by simp [hdecl j hj])
    simp only [if_neg hk]
    rw [ofItems, if_neg hall, if_neg hany, he]

/-- An expression is read from all tokens of its text, of which no item is taken for a
declaration. -/
theorem expression_ok (h : Lexed.ofText source text = .ok x) {e : Expr}
    (he : ofText source text = .ok (.expression e)) :
    Grammar.expr.runAll x.tokens x.stop = .ok e ∧
      ∀ i ∈ Item.split x.tokens, i.isDecl = false := by
  obtain ⟨toks, stop⟩ := x
  unfold ofText at he
  rw [h] at he
  cases toks with
  | nil => cases he
  | cons t ts =>
    simp only at he
    split at he
    · cases hm : Module.ofTokens source (t :: ts) stop <;> rw [hm] at he <;> cases he
    · rw [ofItems] at he
      split at he
      · cases hds : Decl.ofItems source (Item.split (t :: ts)) <;> rw [hds] at he <;> cases he
      · split at he
        · cases he
        · rename_i hany
          split at he
          · cases he
          · rename_i e' hrun
            cases he
            refine ⟨hrun, fun i hi => ?_⟩
            by_contra hd
            exact hany (List.any_eq_true.mpr ⟨i, hi, by simpa using hd⟩)

/-- **The classification agrees with the grammar.** No item is read both as a declaration and as an
expression, and the scan takes it for what it is read as. A text is taken for definitions, with its
declarations in their order, if all its items are read as declarations, and for an expression if it
is read as one and no item is taken for a declaration; in no other way does it become either. -/
theorem classified (h : Lexed.ofText source text = .ok x) :
    (∀ (i : Item) (stop : Pos) (d : Decl), Grammar.decl.runAll i.toks stop = .ok d →
      i.isDecl = true) ∧
    (∀ (i : Item) (stop : Pos) (e : Expr), Grammar.expr.runAll i.toks stop = .ok e →
      i.isDecl = false) ∧
    (∀ (i : Item) (stop stop' : Pos) (d : Decl) (e : Expr),
      ¬ (Grammar.decl.runAll i.toks stop = .ok d ∧ Grammar.expr.runAll i.toks stop' = .ok e)) ∧
    (∀ ds, ofText source text = .ok (.definitions ds) ↔
      (Item.split x.tokens).map Item.decl = ds.map .ok) ∧
    ∀ e, ofText source text = .ok (.expression e) ↔
      Grammar.expr.runAll x.tokens x.stop = .ok e ∧ ∀ i ∈ Item.split x.tokens, i.isDecl = false := by
  refine ⟨fun i stop d => Item.isDecl_of_decl, fun i stop e he => (Item.isDecl_of_expr he).1,
    fun i stop stop' d e => ?_, fun ds => ⟨fun hds => ?_, definitions_of_items h⟩,
    fun e => ⟨expression_ok h, expression_of_expr h⟩⟩
  · rintro ⟨hd, he⟩
    have hdecl := Item.isDecl_of_decl hd
    rw [(Item.isDecl_of_expr he).1] at hdecl
    cases hdecl
  · obtain ⟨y, hy, hitems⟩ := definitions_ok hds
    rw [h] at hy
    cases hy
    exact Decl.ofItems_ok.mp hitems

/-- Where the definitions of a fragment stand. -/
def definitionPlaces : Fragment → List Pos
  | definitions ds => ds.map Decl.pos
  | _ => []

/-- Where the expression stands that a fragment is. -/
def expressionPlace? : Fragment → Option Pos
  | expression e => some e.pos
  | _ => none

/-- An equation with a unit pattern and an equals sign in its right hand side, and a signature of two
names; and such a right hand side alone. -/
theorem classified_unit_pattern :
    (∃ (x : Lexed) (ds : List Decl), Lexed.ofText "s" "f x () = let y = x in y\na, b :: Int" = .ok x ∧
      (Item.split x.tokens).map Item.decl = ds.map .ok ∧ ds.map Decl.pos = [⟨1, 1⟩, ⟨2, 1⟩]) ∧
    ∃ (x : Lexed) (e : Expr), Lexed.ofText "s" "let y = 1 in\n  f y ()" = .ok x ∧
      Grammar.expr.runAll x.tokens x.stop = .ok e ∧ e.pos = ⟨1, 1⟩ ∧
      ∀ i ∈ Item.split x.tokens, i.isDecl = false := by
  constructor
  · have hds : (ofText "s" "f x () = let y = x in y\na, b :: Int").toOption.map definitionPlaces =
        some [⟨1, 1⟩, ⟨2, 1⟩] := by decide +kernel
    cases hx : Lexed.ofText "s" "f x () = let y = x in y\na, b :: Int" with
    | error e => simp [ofText, hx, Except.toOption] at hds
    | ok x =>
      cases hread : ofText "s" "f x () = let y = x in y\na, b :: Int" with
      | error es => rw [hread] at hds; cases hds
      | ok f =>
        rw [hread] at hds
        cases f with
        | definitions ds =>
          exact ⟨x, ds, rfl, ((classified hx).2.2.2.1 ds).mp hread, Option.some.inj hds⟩
        | expression e => cases hds
        | module m => cases hds
  · have he : (ofText "s" "let y = 1 in\n  f y ()").toOption.bind expressionPlace? = some ⟨1, 1⟩ := by
      decide +kernel
    cases hx : Lexed.ofText "s" "let y = 1 in\n  f y ()" with
    | error e => simp [ofText, hx, Except.toOption] at he
    | ok x =>
      cases hread : ofText "s" "let y = 1 in\n  f y ()" with
      | error es => rw [hread] at he; cases he
      | ok f =>
        rw [hread] at he
        cases f with
        | definitions ds => cases he
        | expression e =>
          obtain ⟨hexpr, hdecl⟩ := ((classified hx).2.2.2.2 e).mp hread
          exact ⟨x, e, rfl, hexpr, Option.some.inj he, hdecl⟩
        | module m => cases he

end Fragment

end LazySession

import LazySession.Lang.Fragment
import LazySession.Proofs.Lang.Reader
import LazySession.Proofs.Scope.Checked

/-!
# What is read has no variable called `()`

The check of scopes takes the pattern `()` for a name. No harm comes of it, as no variable that is
read from a text has this name: `Fragment.tidy_ofText`, `Module.tidy_ofText`. Nor has a variable a
dot in its name, so that it is never taken for one of a module.
-/

namespace LazySession

/-- No variable has the name `()` or one with a dot in it. -/
def Token.Proper (t : Token) : Prop := t.kind = .ident → t.text ≠ "()" ∧ '.' ∉ t.text.toList

def Expr.Tidy (e : Expr) : Prop := e.Scoped (· ≠ "()")

/-! ## Tokens -/

namespace Lexeme

/-- A lexeme that is a variable is not called `()`, and has no dot in its name. -/
def Proper (l : Lexeme) : Prop :=
  ∀ text, l.token? = some (.ident, text) → text ≠ "()" ∧ '.' ∉ text.toList

theorem proper_blank (raw : List Char) : (blank raw).Proper := nofun

theorem proper_of_kind {kind : TokenKind} (h : kind ≠ .ident) (raw : List Char) :
    (token kind raw).Proper := by
  rintro text ⟨⟩
  exact absurd rfl h

theorem dotted_kind (cs : List Char) : (dotted cs).1 ≠ .ident := by
  fun_induction dotted cs with
  | case1 dot c cs' _ _ _ _ h ih => rwa [h] at ih
  | _ => simp

theorem ofSymbols_kind (run : String) : TokenKind.ofSymbols run ≠ .ident := by
  unfold TokenKind.ofSymbols
  split <;> nofun

theorem proper_stringFrom {raw text cs : List Char} {l : Lexeme} {rest : List Char}
    (h : stringFrom raw text cs = .ok (l, rest)) : l.Proper := by
  fun_induction stringFrom raw text cs with
  | case3 =>
    cases h
    intro text ht
    cases ht
  | case5 _ _ _ _ _ _ _ _ ih => exact ih h
  | case7 _ _ _ _ _ _ _ ih => exact ih h
  | _ => cases h

theorem proper_commentFrom {depth : Nat} {raw cs : List Char} {l : Lexeme} {rest : List Char}
    (h : commentFrom depth raw cs = .ok (l, rest)) : l.Proper := by
  fun_induction commentFrom depth raw cs with
  | case1 | case2 => cases h
  | case3 _ _ _ _ _ _ ih => exact ih h
  | case4 => cases h; exact proper_blank _
  | case5 _ _ _ _ _ _ _ ih => exact ih h
  | case6 _ _ _ _ _ _ _ ih => exact ih h

theorem proper_next {c : Char} {cs : List Char} {l : Lexeme} {rest : List Char}
    (h : next c cs = .ok (l, rest)) : l.Proper := by
  revert h
  fun_cases next c cs with
  | case1 => intro h; cases h; exact proper_blank _
  | case2 => exact proper_commentFrom
  | case3 _ _ hc word =>
    -- a word starts with a letter or an underscore
    intro h
    cases h
    intro text ht
    obtain ⟨-, rfl⟩ := Prod.mk.inj (Option.some.inj ht)
    have hne : ∀ d, isIdentStart d = false → d ≠ c := by
      rintro d hd rfl
      rw [hd] at hc
      cases hc
    refine ⟨fun he => ?_, ?_⟩
    · have := congrArg (·.toList.head?) he
      exact hne '(' (by decide) (by simpa [word] using this.symm)
    · have hdot : '.' ∉ cs.takeWhile isIdentPart := fun hm =>
        absurd (List.all_eq_true.mp List.all_takeWhile _ hm) (by decide)
      simpa [word, hne '.' (by decide)] using hdot
  | case4 =>
    intro h
    obtain rfl : (name c cs).1 = l := by
      simp only [Except.ok.injEq] at h
      rw [h]
    exact proper_of_kind (dotted_kind _) _
  | case6 => exact proper_stringFrom
  | case11 =>
    intro h
    obtain rfl : (symbols c cs).1 = l := by
      simp only [Except.ok.injEq] at h
      rw [h]
    unfold symbols
    dsimp only
    split
    · exact proper_blank _
    · exact proper_of_kind (ofSymbols_kind _) _
  | case12 => intro h; cases h
  | _ => intro h; cases h; exact proper_of_kind (by decide) _

theorem proper_scanFrom {done : List Lexeme} {cs : List Char} (hd : ∀ l ∈ done, l.Proper) :
    ∀ l ∈ (scanFrom done cs).1, l.Proper := by
  fun_induction scanFrom done cs with
  | case1 done => simpa using hd
  | case2 done c cs f h => simpa using hd
  | case3 done c cs l rest h _ ih =>
    refine ih fun l' hl' => ?_
    rcases List.mem_cons.mp hl' with rfl | hl'
    · exact proper_next h
    · exact hd l' hl'

theorem proper_tokensFrom {ls : List Lexeme} (hl : ∀ l ∈ ls, l.Proper) :
    ∀ {done : List Token} {pos : Pos} {fresh : Bool}, (∀ t ∈ done, t.Proper) →
      ∀ t ∈ tokensFrom done pos fresh ls, t.Proper := by
  induction ls with
  | nil => exact fun hd => by simpa [tokensFrom] using hd
  | cons l ls ih =>
    intro done pos fresh hd
    have ih := @ih fun l' hl' => hl l' (List.mem_cons_of_mem _ hl')
    unfold tokensFrom
    simp only
    split
    · rename_i kind text ht
      refine ih fun t htm => ?_
      rcases List.mem_cons.mp htm with rfl | htm
      · intro hk
        simp only at hk
        subst hk
        exact hl l List.mem_cons_self text ht
      · exact hd t htm
    · exact ih hd

end Lexeme

theorem Lexed.proper_ofText {source text : String} {lexed : Lexed}
    (h : Lexed.ofText source text = .ok lexed) : ∀ t ∈ lexed.tokens, t.Proper := by
  unfold ofText at h
  have hp : ∀ l ∈ (Lexeme.scan text.toList).1, l.Proper := Lexeme.proper_scanFrom nofun
  split at h
  · cases h
  · rename_i ls hs
    rw [hs] at hp
    cases h
    exact Lexeme.proper_tokensFrom hp nofun

/-! ## Expressions -/

namespace Grammar

open Reader

theorem gives_exhausted {α : Type} {T : Token → Prop} {Q : α → Prop} :
    Gives T Q (exhausted : Reader α) :=
  gives_bind gives_peek fun _ _ => gives_fail _ _

theorem mem_paramsFrom {T : Token → Prop} (toks : List Token) (done : List Param)
    (h : ∀ t ∈ toks, T t) : ∀ t ∈ (paramsFrom done toks).2, T t := by
  fun_induction paramsFrom done toks with
  | case1 => exact nofun
  | case2 done t ts _ ih => exact ih fun t ht => h t (List.mem_cons_of_mem _ ht)
  | case3 => exact h
  | case4 done t _ u us _ ih =>
    exact ih fun t ht => h t (List.mem_cons_of_mem _ (List.mem_cons_of_mem _ ht))
  | case5 => exact h

theorem gives_params {T : Token → Prop} : Gives T (fun _ => True) params := by
  refine gives_bind gives_get fun c hc => ?_
  exact gives_bind (gives_set (mem_paramsFrom _ _ hc)) fun _ _ => gives_pure trivial

theorem dotted_ne_unit (mod name : String) : mod ++ "." ++ name ≠ "()" := by
  intro h
  have hmem : '.' ∈ (mod ++ "." ++ name).toList := by simp
  rw [h] at hmem
  exact absurd hmem (by decide)

/-- What the readers of expressions give with `n` units of fuel. -/
structure Tidies (n : Nat) : Prop where
  operation : ∀ level, Gives Token.Proper Expr.Tidy (operation n level)
  operationFrom : ∀ level left, left.Tidy → Gives Token.Proper Expr.Tidy (operationFrom n level left)
  operand : Gives Token.Proper Expr.Tidy (operand n)
  application : Gives Token.Proper Expr.Tidy (application n)
  arguments : ∀ done, (∀ e ∈ done, e.Tidy) →
    Gives Token.Proper (fun es => ∀ e ∈ es, e.Tidy) (arguments n done)
  atom : Gives Token.Proper Expr.Tidy (atom n)
  parenthesized : ∀ t, Gives Token.Proper Expr.Tidy (parenthesized n t)
  lambda : Gives Token.Proper Expr.Tidy (lambda n)
  cond : Gives Token.Proper Expr.Tidy (cond n)
  letIn : Gives Token.Proper Expr.Tidy (letIn n)
  bindings : ∀ col done, (∀ b ∈ done, b.body.Tidy) →
    Gives Token.Proper (fun bs => ∀ b ∈ bs, b.body.Tidy) (bindings n col done)
  binding : ∀ strict, Gives Token.Proper (fun b => b.body.Tidy) (binding n strict)

theorem tidies_zero : Tidies 0 where
  operation _ := gives_exhausted
  operationFrom _ _ _ := gives_exhausted
  operand := gives_exhausted
  application := gives_exhausted
  arguments _ _ := gives_exhausted
  atom := gives_exhausted
  parenthesized _ := gives_exhausted
  lambda := gives_exhausted
  cond := gives_exhausted
  letIn := gives_exhausted
  bindings _ _ _ := gives_exhausted
  binding _ := gives_exhausted

theorem gives_checkChain {T : Token → Prop} (t : Token) (op : Operator) :
    Gives T (fun _ => True) (checkChain t op) := by
  refine gives_bind gives_get fun c _ => ?_
  simp only
  split
  · split
    · split
      · exact gives_fail _ _
      · exact gives_pure trivial
    · exact gives_pure trivial
  · exact gives_pure trivial

theorem tidies_succ {n : Nat} (ih : Tidies n) : Tidies (n + 1) where
  operation level := by
    unfold Grammar.operation
    exact gives_bind ih.operand fun left hl => ih.operationFrom level left hl
  operationFrom level left hl := by
    unfold Grammar.operationFrom
    refine gives_bind gives_get fun c _ => ?_
    simp only
    split
    · exact gives_pure hl
    · split
      · exact gives_fail _ _
      · split
        · exact gives_pure hl
        · refine gives_bind gives_skip fun _ _ => gives_bind (ih.operation _) fun right hr => ?_
          exact gives_bind (gives_checkChain _ _) fun _ _ => ih.operationFrom _ _ (.binary hl hr)
  operand := by
    unfold Grammar.operand
    refine gives_bind gives_peek fun t _ => ?_
    split
    · exact ih.lambda
    · exact ih.letIn
    · exact ih.cond
    · split
      · exact gives_bind gives_skip fun _ _ => gives_bind (ih.operation _) fun e he =>
          gives_pure (.negate he)
      · exact ih.application
    · exact ih.application
  application := by
    unfold Grammar.application
    refine gives_bind ih.atom fun fn hf => gives_bind (ih.arguments [] nofun) fun args ha => ?_
    refine gives_pure ?_
    split
    · exact hf
    · exact .app hf ha
  arguments done hd := by
    unfold Grammar.arguments
    refine gives_bind gives_get fun c _ => ?_
    split
    · refine gives_bind ih.atom fun a ha => ih.arguments _ fun e he => ?_
      rcases List.mem_cons.mp he with rfl | he
      · exact ha
      · exact hd e he
    · exact gives_pure fun e he => hd e (List.mem_reverse.mp he)
  atom := by
    unfold Grammar.atom
    refine gives_bind gives_peek fun t ht => ?_
    split
    · rename_i hk
      -- a name is no pair of parentheses
      have hp := ht.resolve_right (by simp [hk])
      exact gives_bind gives_skip fun _ _ => gives_pure (.var (hp hk).1)
    · exact gives_bind gives_skip fun _ _ => gives_pure (.qualified (dotted_ne_unit _ _))
    · refine gives_bind gives_skip fun _ _ => ?_
      split
      · exact gives_pure .bool
      · exact gives_pure .bool
      · exact gives_fail _ _
    · refine gives_bind gives_skip fun _ _ => ?_
      split
      · exact gives_pure .int
      · exact gives_fail _ _
    · exact gives_bind gives_skip fun _ _ => gives_pure .str
    · exact gives_bind gives_skip fun _ _ => ih.parenthesized t
    · exact gives_fail _ _
  parenthesized t := by
    unfold Grammar.parenthesized
    refine gives_bind gives_get fun c _ => ?_
    simp only
    split
    · exact gives_bind gives_skip fun _ _ => gives_pure .unit
    · split
      · split
        · exact gives_fail _ _
        · exact gives_bind gives_skip fun _ _ => gives_bind gives_skip fun _ _ =>
            gives_pure .operator
      · refine gives_bind (gives_withColumn 0 (ih.operation 0)) fun e he => ?_
        exact gives_bind (gives_expect _ _) fun _ _ => gives_pure he
  lambda := by
    unfold Grammar.lambda
    refine gives_bind gives_next fun t _ => gives_bind gives_params fun ps _ => ?_
    split
    · exact gives_bind gives_peek fun _ _ => gives_fail _ _
    · refine gives_bind (gives_expect _ _) fun _ _ => gives_bind (ih.operation 0) fun e he => ?_
      -- in the body, the parameters are known as well
      exact gives_pure (.lambda (he.mono fun _ => .inr))
  cond := by
    unfold Grammar.cond
    refine gives_bind gives_next fun t _ => gives_bind (ih.operation 0) fun test ht => ?_
    refine gives_bind (gives_expect _ _) fun _ _ => gives_bind (ih.operation 0) fun yes hy => ?_
    refine gives_bind (gives_expect _ _) fun _ _ => gives_bind (ih.operation 0) fun no hn => ?_
    exact gives_pure (.cond ht hy hn)
  letIn := by
    unfold Grammar.letIn
    refine gives_bind gives_next fun t _ => gives_bind gives_peek fun first _ => ?_
    split
    · exact gives_fail _ _
    · refine gives_bind (gives_withColumn _ (ih.bindings _ _ nofun)) fun binds hb => ?_
      refine gives_bind (gives_expect _ _) fun _ _ => gives_bind (ih.operation 0) fun e he => ?_
      refine gives_pure (.letIn (fun b hm => ?_) (he.mono fun _ => .inr))
      exact (hb b hm).mono fun _ hx => .inr (.inr hx)
  bindings col done hd := by
    unfold Grammar.bindings
    refine gives_bind (ih.binding false) fun b hb => gives_bind gives_peek fun t _ => ?_
    have hbs : ∀ b' ∈ b :: done, Expr.Tidy b'.body := by
      intro b' hm
      rcases List.mem_cons.mp hm with rfl | hm
      · exact hb
      · exact hd b' hm
    split
    · exact gives_bind gives_skip fun _ _ => ih.bindings _ _ hbs
    · split
      · exact gives_pure fun b' hm => hbs b' (List.mem_reverse.mp hm)
      · split
        · exact ih.bindings _ _ hbs
        · exact gives_fail _ _
  binding strict := by
    unfold Grammar.binding
    refine gives_bind (gives_expect _ _) fun t _ => gives_bind gives_params fun ps _ => ?_
    refine gives_bind (gives_expect _ _) fun eq _ => ?_
    split
    · exact gives_fail _ _
    · exact gives_bind (ih.operation 0) fun body hb => gives_pure hb

theorem tidies (n : Nat) : Tidies n := by
  induction n with
  | zero => exact tidies_zero
  | succ n ih => exact tidies_succ ih

/-! ## Declarations -/

theorem gives_typeExpr {T : Token → Prop} (n : Nat) :
    Gives T (fun _ => True) (typeExpr n) ∧ (∀ done, Gives T (fun _ => True) (typeArgs n done)) ∧
      Gives T (fun _ => True) (typeAtom n) := by
  induction n with
  | zero => exact ⟨gives_exhausted, fun _ => gives_exhausted, gives_exhausted⟩
  | succ n ih =>
    obtain ⟨hexpr, hargs, hatom⟩ := ih
    refine ⟨?_, fun done => ?_, ?_⟩
    · unfold typeExpr
      refine gives_bind hatom fun _ _ => gives_bind (hargs _) fun _ _ => gives_bind gives_peek fun _ _ => ?_
      split
      · exact gives_bind gives_skip fun _ _ => gives_bind hexpr fun _ _ => gives_pure trivial
      · exact gives_pure trivial
    · unfold typeArgs
      refine gives_bind gives_peek fun _ _ => ?_
      split
      · exact gives_bind hatom fun _ _ => hargs _
      · exact gives_pure trivial
    · unfold typeAtom
      refine gives_bind gives_next fun _ _ => ?_
      split
      · exact gives_pure trivial
      · exact gives_pure trivial
      · refine gives_bind gives_peek fun _ _ => ?_
        split
        · exact gives_bind gives_skip fun _ _ => gives_pure trivial
        · exact gives_bind hexpr fun _ _ => gives_bind (gives_expect _ _) fun _ _ =>
            gives_pure trivial
      · exact gives_fail _ _

theorem gives_signatureNames {T : Token → Prop} (n : Nat) :
    ∀ done, Gives T (fun _ => True) (signatureNames n done) := by
  induction n with
  | zero => exact fun _ => gives_exhausted
  | succ n ih =>
    intro done
    unfold signatureNames
    refine gives_bind gives_peek fun _ _ => ?_
    split
    · exact gives_bind gives_skip fun _ _ => gives_bind (gives_expect _ _) fun _ _ => ih _
    · exact gives_pure trivial

theorem gives_decl : Gives Token.Proper Decl.Tidy decl := by
  unfold decl
  refine gives_bind gives_get fun c _ => ?_
  simp only
  split
  · refine gives_bind gives_skip fun _ _ => gives_bind (gives_expect _ _) fun _ _ => ?_
    exact gives_pure trivial
  · exact gives_bind gives_skip fun _ _ => gives_bind ((tidies _).binding true) fun b hb =>
      gives_pure hb
  · split
    · refine gives_bind (gives_expect _ _) fun _ _ => gives_bind gives_get fun _ _ => ?_
      refine gives_bind (gives_signatureNames _ _) fun _ _ => gives_bind (gives_expect _ _) fun _ _ => ?_
      refine gives_bind gives_get fun _ _ => gives_bind (gives_typeExpr _).1 fun _ _ => ?_
      exact gives_pure trivial
    · exact gives_bind ((tidies _).binding false) fun b hb => gives_pure hb
  · exact gives_fail _ _

end Grammar

/-! ## Whole texts -/

namespace Item

/-- The tokens of the items are those that are cut. -/
theorem mem_splitFrom {T : Token → Prop} {toks : List Token} (htoks : ∀ t ∈ toks, T t) :
    ∀ {first : Token} {seen : List Token} {done : List Item}, T first → (∀ t ∈ seen, T t) →
      (∀ i ∈ done, ∀ t ∈ i.toks, T t) →
      ∀ i ∈ splitFrom first seen done toks, ∀ t ∈ i.toks, T t := by
  have item : ∀ {first : Token} {seen : List Token} {done : List Item}, T first →
      (∀ t ∈ seen, T t) → (∀ i ∈ done, ∀ t ∈ i.toks, T t) →
      ∀ i ∈ ⟨first, seen.reverse⟩ :: done, ∀ t ∈ i.toks, T t := by
    intro first seen done hf hs hd i hi t ht
    rcases List.mem_cons.mp hi with rfl | hi
    · rcases List.mem_cons.mp ht with rfl | ht
      · exact hf
      · exact hs t (List.mem_reverse.mp ht)
    · exact hd i hi t ht
  induction toks with
  | nil =>
    intro first seen done hf hs hd i hi
    exact item hf hs hd i (List.mem_reverse.mp hi)
  | cons t ts ih =>
    intro first seen done hf hs hd
    have ht := htoks t List.mem_cons_self
    have ih := @ih fun u hu => htoks u (List.mem_cons_of_mem _ hu)
    unfold splitFrom
    split
    · exact ih ht nofun (item hf hs hd)
    · refine ih hf (fun u hu => ?_) hd
      rcases List.mem_cons.mp hu with rfl | hu
      · exact ht
      · exact hs u hu

theorem mem_split {T : Token → Prop} {toks : List Token} (h : ∀ t ∈ toks, T t) :
    ∀ i ∈ split toks, ∀ t ∈ i.toks, T t := by
  cases toks with
  | nil => exact nofun
  | cons t ts =>
    exact mem_splitFrom (fun u hu => h u (List.mem_cons_of_mem _ hu)) (h t List.mem_cons_self)
      nofun nofun

end Item

theorem Reader.gives_runAll {α : Type} {T : Token → Prop} {Q : α → Prop} {r : Reader α}
    (hr : Gives T Q r) {toks : List Token} {stop : Pos} {a : α} (h : r.runAll toks stop = .ok a)
    (htoks : ∀ t ∈ toks, T t) : Q a := by
  obtain ⟨c, hc, _⟩ := runAll_ok.mp h
  exact (hr _ a c htoks hc).1

/-- A declaration that is read from tokens with `T` has `Q`. -/
def Decl.Reads (T : Token → Prop) (Q : Decl → Prop) : Prop :=
  ∀ c d c', (∀ t ∈ c.toks, T t) → Grammar.decl.run c = .ok (d, c') → Q d

theorem Decl.reads_tidy : Decl.Reads Token.Proper Decl.Tidy :=
  fun c d c' hc h => (Grammar.gives_decl c d c' hc h).1

theorem Decl.each_ofItems {T : Token → Prop} {Q : Decl → Prop} (hQ : Decl.Reads T Q)
    {source : String} {items : List Item} {ds : List Decl} (h : Decl.ofItems source items = .ok ds)
    (hi : ∀ i ∈ items, ∀ t ∈ i.toks, T t) : ∀ d ∈ ds, Q d := by
  unfold ofItems at h
  simp only at h
  split at h
  · cases h
    intro d hd
    obtain ⟨r, hr, he⟩ := List.mem_filterMap.mp hd
    obtain ⟨i, him, rfl⟩ := List.mem_map.mp hr
    split at he
    · rename_i d' hd'
      cases he
      obtain ⟨c, hc, _⟩ := Reader.runAll_ok.mp hd'
      exact hQ _ d c (hi i him) hc
    · cases he
  · cases h

theorem Decl.ofItems_error {source : String} {items : List Item} {es : List SyntaxError}
    (h : Decl.ofItems source items = .error es) : es ≠ [] := by
  unfold ofItems at h
  simp only at h
  split at h
  · cases h
  · rename_i hne
    cases h
    exact fun he => hne (List.isEmpty_iff.mpr he)

namespace Module

variable {source text : String} {toks : List Token} {stop : Pos}

theorem each_ofTokens {T : Token → Prop} {Q : Decl → Prop} (hQ : Decl.Reads T Q) {m : Module}
    (h : ofTokens source toks stop = .ok m) (ht : ∀ t ∈ toks, T t) : ∀ d ∈ m.decls, Q d := by
  unfold ofTokens at h
  split at h
  · cases h
  · rename_i pos name c hc
    generalize hd : Decl.ofItems source (Item.split c.toks) = r at h
    cases r <;> cases h
    have header : Reader.Gives T (fun _ => True) Grammar.moduleHeader := by
      refine Reader.gives_bind (Reader.gives_expect _ _) fun _ _ => ?_
      refine Reader.gives_bind (Reader.gives_expect _ _) fun _ _ => ?_
      exact Reader.gives_bind (Reader.gives_expect _ _) fun _ _ => Reader.gives_pure trivial
    exact Decl.each_ofItems hQ hd (Item.mem_split (header _ _ _ ht hc).2)

theorem ofTokens_error {es : List SyntaxError} (h : ofTokens source toks stop = .error es) :
    es ≠ [] := by
  unfold ofTokens at h
  split at h
  · cases h; nofun
  · generalize hd : Decl.ofItems source _ = r at h
    cases r <;> cases h
    exact Decl.ofItems_error hd

theorem each_ofText {T : Token → Prop} {Q : Decl → Prop} (hQ : Decl.Reads T Q)
    (hT : ∀ lexed, Lexed.ofText source text = .ok lexed → ∀ t ∈ lexed.tokens, T t) {m : Module}
    (h : ofText source text = .ok m) : ∀ d ∈ m.decls, Q d := by
  unfold ofText at h
  split at h
  · cases h
  · rename_i hl
    split at h
    · cases h
    · split at h
      · exact each_ofTokens hQ h (hT _ hl)
      · cases h

theorem tidy_ofText {m : Module} (h : ofText source text = .ok m) : ∀ d ∈ m.decls, d.Tidy :=
  each_ofText Decl.reads_tidy (fun _ => Lexed.proper_ofText) h

theorem ofText_error {es : List SyntaxError} (h : ofText source text = .error es) : es ≠ [] := by
  unfold ofText at h
  split at h
  · cases h; nofun
  · split at h
    · cases h; nofun
    · split at h
      · exact ofTokens_error h
      · cases h; nofun

end Module

namespace Fragment

variable {source text : String}

def Tidy : Fragment → Prop
  | definitions ds => ∀ d ∈ ds, d.Tidy
  | expression e => e.Tidy
  | module m => ∀ d ∈ m.decls, d.Tidy

/-- The declarations of a fragment. -/
def decls : Fragment → List Decl
  | definitions ds => ds
  | expression _ => []
  | module m => m.decls

theorem each_ofText {T : Token → Prop} {Q : Decl → Prop} (hQ : Decl.Reads T Q)
    (hT : ∀ lexed, Lexed.ofText source text = .ok lexed → ∀ t ∈ lexed.tokens, T t) {f : Fragment}
    (h : ofText source text = .ok f) : ∀ d ∈ f.decls, Q d := by
  unfold ofText at h
  split at h
  · cases h
  · rename_i toks stop hl
    have ht := hT _ hl
    split at h
    · cases h; nofun
    · split at h
      · generalize hm : Module.ofTokens source _ stop = r at h
        cases r <;> cases h
        exact Module.each_ofTokens hQ hm ht
      · unfold ofItems at h
        split at h
        · generalize hd : Decl.ofItems source _ = r at h
          cases r <;> cases h
          exact Decl.each_ofItems hQ hd (Item.mem_split ht)
        · split at h
          · cases h
          · split at h <;> cases h
            nofun

theorem tidy_expression {e : Expr} (h : ofText source text = .ok (.expression e)) : e.Tidy := by
  unfold ofText at h
  split at h
  · cases h
  · rename_i toks stop hl
    split at h
    · cases h
    · split at h
      · generalize Module.ofTokens source _ stop = r at h
        cases r <;> cases h
      · unfold ofItems at h
        split at h
        · generalize Decl.ofItems source _ = r at h
          cases r <;> cases h
        · split at h
          · cases h
          · split at h
            · cases h
            · rename_i e he
              cases h
              have hexpr : Reader.Gives Token.Proper Expr.Tidy Grammar.expr :=
                Reader.gives_bind Reader.gives_get fun _ _ => (Grammar.tidies _).operation 0
              exact Reader.gives_runAll hexpr he (Lexed.proper_ofText hl)

theorem tidy_ofText {f : Fragment} (h : ofText source text = .ok f) : f.Tidy := by
  have hdecls := each_ofText Decl.reads_tidy (fun _ => Lexed.proper_ofText) h
  cases f with
  | definitions ds => exact hdecls
  | expression e => exact tidy_expression h
  | module m => exact hdecls

theorem ofText_error {es : List SyntaxError} (h : ofText source text = .error es) : es ≠ [] := by
  unfold ofText at h
  split at h
  · cases h; nofun
  · split at h
    · cases h
    · split at h
      · generalize hm : Module.ofTokens source _ _ = r at h
        cases r <;> cases h
        exact Module.ofTokens_error hm
      · unfold ofItems at h
        split at h
        · generalize hd : Decl.ofItems source _ = r at h
          cases r <;> cases h
          exact Decl.ofItems_error hd
        · split at h
          · cases h; nofun
          · split at h
            · cases h; nofun
            · cases h

end Fragment

end LazySession

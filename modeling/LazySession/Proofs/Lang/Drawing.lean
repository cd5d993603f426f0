import LazySession.Proofs.Lang.Standing

/-!
# Drawings of an expression

An expression on one line, the bindings of each `let` separated by semicolons, can be drawn in other
ways: the bindings of a `let` may stand below each other, in the column of the first. Both are read
as one expression, but for the places: `Fragment.drawings_agree`.
-/

namespace LazySession

namespace Grammar

open Reader Pair

mutual

/-- A piece of a line: a word that is on both sides, or an expression that is drawn. -/
inductive Part : Pair → Prop
  | word {t t' : Token} (hkind : t'.kind = t.kind) (htext : t'.text = t.text) (heof : t.kind ≠ .eof) :
    Part (.word t t')
  | parens {l l' r r' : Token} {ws ts : List Token} {e : Expr} (hl : l.kind = .lparen)
    (hl' : l'.kind = .lparen) (hr : r.kind = .rparen) (hr' : r'.kind = .rparen)
    (h : Drawn ws ts e) : Part (.group l l' (ws ++ [r]) (ts ++ [r']))
  | letIn {t t' : Token} {ws ts : List Token} {e : Expr} (h : Laid t t' ws ts e) :
    Part (.block t t' ws ts)

/-- An expression on one line, a drawing of it, and the tree without its places: words that are read
as an expression by themselves, where some parts may be drawn, an expression in parentheses, or a
`let`. -/
inductive Drawn : List Token → List Token → Expr → Prop
  | line {ps : List Pair} {stop : Pos} {e : Expr} (hline : Line ps) (hparts : ∀ p ∈ ps, Part p)
    (h : expr.runAll (lefts ps) stop = .ok e) : Drawn (lefts ps) (rights ps) e.erase
  | parens {l l' r r' : Token} {ws ts : List Token} {e : Expr} (hl : l.kind = .lparen)
    (hl' : l'.kind = .lparen) (hr : r.kind = .rparen) (hr' : r'.kind = .rparen)
    (h : Drawn ws ts e) : Drawn (l :: (ws ++ [r])) (l' :: (ts ++ [r'])) e
  | letIn {t t' : Token} {ws ts : List Token} {e : Expr} (h : Laid t t' ws ts e) :
    Drawn (t :: ws) (t' :: ts) e

/-- What follows `let`. The body is on the line of `in`, which may be on any line. -/
inductive Laid : Token → Token → List Token → List Token → Expr → Prop
  | mk {col : Int} {t t' u u' i i' : Token} {ws ts vs us : List Token} {bs : List Binding} {e : Expr}
    (ht : t.kind = .kwLet) (ht' : t'.kind = .kwLet) (hi : i.kind = .kwIn) (hi' : i'.kind = .kwIn)
    (hrows : Rows col (u :: ws) (u' :: ts) bs) (hcol : u'.pos.col = col) (hbody : Drawn vs us e) :
    Laid t t' (u :: ws ++ i :: vs) (u' :: ts ++ i' :: us) (.letIn .start bs e)

/-- Bindings that are separated by semicolons on one line. In the drawing, each next one may be
behind a semicolon, too, or on a new line and in the column. -/
inductive Rows : Int → List Token → List Token → List Binding → Prop
  | single {col : Int} {ws ts : List Token} {b : Binding} (h : Row ws ts b) : Rows col ws ts [b]
  | semi {col : Int} {s s' : Token} {ws ts vs us : List Token} {b : Binding} {bs : List Binding}
    (hs : s.kind = .semi) (hs' : s'.kind = .semi) (h : Row ws ts b) (hrows : Rows col vs us bs) :
    Rows col (ws ++ s :: vs) (ts ++ s' :: us) (b :: bs)
  | newLine {col : Int} {s u : Token} {ws ts vs us : List Token} {b : Binding} {bs : List Binding}
    (hs : s.kind = .semi) (hline : u.startsLine = true) (hcol : u.pos.col = col)
    (h : Row ws ts b) (hrows : Rows col vs (u :: us) bs) :
    Rows col (ws ++ s :: vs) (ts ++ u :: us) (b :: bs)

/-- A binding: words that are read as one by themselves, or a name, parameters, and an expression
that is drawn. -/
inductive Row : List Token → List Token → Binding → Prop
  | line {ps : List Pair} {stop : Pos} {n : Nat} {b : Binding} (hline : Line ps)
    (hparts : ∀ p ∈ ps, Part p) (h : (binding n false).runAll (lefts ps) stop = .ok b) :
    Row (lefts ps) (rights ps) b.erase
  | names {t t' : Token} {hs hs' ws ts : List Token} {qs : List Param} {e : Expr}
    (ht : t.kind = .ident) (ht' : t'.kind = .ident) (htext : t'.text = t.text) (hqs : Header hs qs)
    (hqs' : Header hs' qs) (h : Drawn ws ts e) :
    Row (t :: hs ++ ws) (t' :: hs' ++ ts) ⟨.start, t.text, qs, false, e⟩

end

/-! ## One line on both sides -/

/-- The first side on both sides. -/
def same : Pair → Pair
  | .word t _ => .word t t
  | .group t _ ts _ => .group t t ts ts
  | .block t _ ts _ => .block t t ts ts

section
variable {f : Pos → Pos} {fuel : Nat} {p : Pair} {ps : List Pair}

@[simp] theorem first_same (p : Pair) : (same p).first = p.first := by
  cases p <;> rfl

@[simp] theorem first'_same (p : Pair) : (same p).first' = p.first := by
  cases p <;> rfl

theorem lefts_same (ps : List Pair) : lefts (ps.map same) = lefts ps := by
  rw [lefts, List.flatMap_map, lefts]
  congr 1
  funext p
  cases p <;> rfl

theorem rights_same (ps : List Pair) : rights (ps.map same) = lefts ps := by
  rw [rights, List.flatMap_map, lefts]
  congr 1
  funext p
  cases p <;> rfl

theorem fits_same (h : p.Fits f f fuel) : (same p).Fits f f fuel := by
  cases p with
  | word t t' => exact ⟨rfl, rfl, rfl⟩
  | group t t' ts ts' =>
    obtain ⟨e, hs, -⟩ := h
    exact ⟨e, hs, hs⟩
  | block t t' ts ts' =>
    obtain ⟨e, hs, -⟩ := h
    exact ⟨e, hs, hs⟩

theorem Line.same (h : Line ps) : Line (ps.map Grammar.same) := by
  constructor
  · intro p hp
    rw [← List.map_tail] at hp
    obtain ⟨q, hq, rfl⟩ := List.mem_map.mp hp
    simp [(h.inline q hq).1]
  · rw [List.isChain_map]
    refine h.meets.imp fun p q hpq => ?_
    cases p with
    | block t t' ts ts' =>
      have hmeets : (Grammar.same q).first.kind ≠ .op ∧ startsAtom (Grammar.same q).first = false := by
        rwa [first_same]
      exact hmeets
    | _ => trivial

/-- What holds of the second side of any line with this first side holds of both sides. -/
theorem Line.both (h : Line ps) {P : List Token → Prop}
    (hfits : ∀ p ∈ ps, ∃ fuel, p.Fits f f fuel) (hk : ∀ p ∈ ps, p.first.kind ≠ .eof)
    (hP : ∀ qs fuel, Line qs → (∀ p ∈ qs, p.Fits f f fuel) → (∀ p ∈ qs, p.first.kind ≠ .eof) →
      lefts qs = lefts ps → P (rights qs)) : P (lefts ps) ∧ P (rights ps) := by
  obtain ⟨fuel, hfits⟩ := exists_fuel hfits
  refine ⟨?_, hP ps fuel h hfits hk rfl⟩
  rw [← rights_same]
  refine hP _ fuel h.same ?_ ?_ (lefts_same ps)
  · intro p hp
    obtain ⟨q, hq, rfl⟩ := List.mem_map.mp hp
    exact fits_same (hfits q hq)
  · intro p hp
    obtain ⟨q, hq, rfl⟩ := List.mem_map.mp hp
    rw [first_same]
    exact hk q hq

end

/-! ## Both sides are read alike -/

theorem Part.kind {p : Pair} (h : Part p) : p.first.kind ≠ .eof := by
  cases h with
  | word _ _ heof => exact heof
  | parens hl => simp [first, hl]
  | letIn h =>
    cases h with
    | mk ht => simp [first, ht]

mutual

theorem Part.fits : ∀ {p : Pair}, Part p → ∃ fuel, p.Fits (fun _ => .start) (fun _ => .start) fuel
  | _, .word hkind htext _ => ⟨0, hkind, htext, rfl⟩
  | _, .parens hl hl' hr hr' h => by
    obtain ⟨hws, hts⟩ := h.readAs
    obtain ⟨k₁, hg⟩ := group_of_readAs hl hr hws
    obtain ⟨k₂, hg'⟩ := group_of_readAs hl' hr' hts
    exact ⟨k₁ + k₂, _, hg.mono (Nat.le_add_right k₁ k₂), hg'.mono (Nat.le_add_left k₂ k₁)⟩
  | _, .letIn h => by
    obtain ⟨k, hb, hb'⟩ := h.block
    exact ⟨k, _, hb, hb'⟩

theorem Drawn.readAs : ∀ {ws ts : List Token} {e : Expr}, Drawn ws ts e → ReadAs ws e ∧ ReadAs ts e
  | _, _, _, .line hline hparts h => by
    refine hline.both (P := (ReadAs · _)) (fun p hp => (hparts p hp).fits)
      (fun p hp => (hparts p hp).kind) fun qs _ hline' hfits hk hleft => ?_
    exact hline'.readAs hfits hk (by rwa [hleft])
  | _, _, _, .parens hl hl' hr hr' h => by
    obtain ⟨hws, hts⟩ := h.readAs
    obtain ⟨k₁, hg⟩ := group_of_readAs hl hr hws
    obtain ⟨k₂, hg'⟩ := group_of_readAs hl' hr' hts
    exact ⟨readAs_of_group hg, readAs_of_group hg'⟩
  | _, _, _, .letIn h => by
    obtain ⟨k, hb, hb'⟩ := h.block
    exact ⟨readAs_of_block hb, readAs_of_block hb'⟩

theorem Laid.block : ∀ {t t' : Token} {ws ts : List Token} {e : Expr}, Laid t t' ws ts e →
    ∃ fuel, Block (fun _ => .start) fuel t ws e ∧ Block (fun _ => .start) fuel t' ts e
  | _, _, _, _, _, .mk ht ht' hi hi' hrows hcol hbody => by
    obtain ⟨hws, hts⟩ := hbody.readAs
    obtain ⟨hrows, hrows'⟩ := hrows.rowsAs
    rw [← hcol] at hrows'
    obtain ⟨k₁, hb⟩ := block_of_rows ht hi (hrows _) hws
    obtain ⟨k₂, hb'⟩ := block_of_rows ht' hi' hrows' hts
    exact ⟨k₁ + k₂, hb.mono (Nat.le_add_right k₁ k₂), hb'.mono (Nat.le_add_left k₂ k₁)⟩

theorem Rows.rowsAs : ∀ {col : Int} {ws ts : List Token} {bs : List Binding}, Rows col ws ts bs →
    (∀ x, RowsAs x ws bs) ∧ RowsAs col ts bs
  | _, _, _, _, .single h =>
    ⟨fun x => rowsAs_single x h.boundAs.1, rowsAs_single _ h.boundAs.2⟩
  | _, _, _, _, .semi hs hs' h hrows =>
    ⟨fun x => rowsAs_semi hs h.boundAs.1 (hrows.rowsAs.1 x), rowsAs_semi hs' h.boundAs.2 hrows.rowsAs.2⟩
  | _, _, _, _, .newLine hs hline hcol h hrows =>
    ⟨fun x => rowsAs_semi hs h.boundAs.1 (hrows.rowsAs.1 x),
      rowsAs_line hline hcol h.boundAs.2 hrows.rowsAs.2⟩

theorem Row.boundAs : ∀ {ws ts : List Token} {b : Binding}, Row ws ts b → BoundAs ws b ∧ BoundAs ts b
  | _, _, _, .line hline hparts h => by
    refine hline.both (P := (BoundAs · _)) (fun p hp => (hparts p hp).fits)
      (fun p hp => (hparts p hp).kind) fun qs _ hline' hfits hk hleft => ?_
    exact hline'.boundAs hfits hk (by rwa [hleft])
  | _, _, _, .names ht ht' htext hqs hqs' h => by
    obtain ⟨hws, hts⟩ := h.readAs
    refine ⟨boundAs_of_header ht hqs hws, ?_⟩
    rw [← htext]
    exact boundAs_of_header ht' hqs' hts

end

/-! ## Texts -/

section
variable {n level : Nat} {c d : Cursor} {e : Expr}

theorem not_operation (hk : c.peek.kind ∈ [.bang, .kwImport, .kwModule]) :
    (operation n level).run c ≠ .ok (e, d) := by
  intro h
  have hmore := within_operation (Nat.le_add_right n 4) level c e d h
  simp only [List.mem_cons, List.not_mem_nil, or_false] at hk
  rcases hk with hk | hk | hk
  all_goals
    simp only [operation, operand, application, atom, run_bind, run_peek, hk] at hmore
    cases hmore

theorem Operand.after_atom {stop : Pos} {layout : List Int} {rest ts : List Token} {e' : Expr}
    (ho : Operand stop layout rest ts e') (h : (atom n).run ⟨ts ++ rest, stop, layout⟩ = .ok (e, d)) :
    d = ⟨rest, stop, layout⟩ := by
  let more := 8 * (ts.length + rest.length) + 2
  obtain ⟨a, c, hrun, -, rfl⟩ := ho.yields_atom (Nat.le_add_left more n)
  have hmore := within_atom (Nat.le_add_right n more) _ _ _ h
  rw [hrun] at hmore
  cases hmore
  rfl

theorem arguments_decl (n : Nat) : ∀ {done as : List Expr} {c d : Cursor}, c.layout = [] →
    Item.leadsToDecl c.toks = true → (arguments n done).run c = .ok (as, d) →
    d.peek.kind ∈ [.equals, .doubleColon, .comma] := by
  induction n with
  | zero => intro done as c d _ _ h; exact absurd h (exhausted_fails c)
  | succ n ih =>
    intro done as ⟨toks, stop, layout⟩ d hlayout hleads h
    obtain rfl : layout = [] := hlayout
    cases toks with
    | nil => cases hleads
    | cons t ts =>
      rw [arguments, run_bind, run_get] at h
      simp only at h
      have hstays : startsAtom t = false → d = ⟨t :: ts, stop, []⟩ := by
        intro hstarts
        rw [if_neg (by simp [Cursor.peek, hstarts])] at h
        cases h
        rfl
      have hgoes : startsAtom t = true → ∃ a c, (atom n).run ⟨t :: ts, stop, []⟩ = .ok (a, c) ∧
          (arguments n (a :: done)).run c = .ok (as, d) := by
        intro hstarts
        rw [if_pos (by simp [Cursor.peek, hstarts, Cursor.atBoundary])] at h
        exact bind_ok h
      change Item.leadsToDecl (t :: ts) = true at hleads
      rw [Item.leadsToDecl.eq_def] at hleads
      simp only at hleads
      cases hk : t.kind with
      | equals | doubleColon | comma =>
        rw [hstays (by simp [startsAtom, hk])]
        simp [Cursor.peek, hk]
      | ident =>
        obtain ⟨a, c, ha, hrest⟩ := hgoes (by simp [startsAtom, hk])
        obtain rfl := (Operand.var hk).after_atom ha
        exact ih rfl (by simpa [hk] using hleads) hrest
      | lparen =>
        simp only [hk] at hleads
        cases ts with
        | nil => cases hleads
        | cons u us =>
          simp only at hleads
          by_cases hu : u.kind = .rparen
          · rw [if_pos hu] at hleads
            obtain ⟨a, c, ha, hrest⟩ := hgoes (by simp [startsAtom, hk])
            obtain rfl := (Operand.unit hk hu).after_atom ha
            exact ih rfl hleads hrest
          · rw [if_neg hu] at hleads
            cases hleads
      | _ => simp [hk] at hleads

theorem isDecl_of_operation {t : Token} {ts : List Token} {stop : Pos}
    (h : (operation n 0).run ⟨t :: ts, stop, []⟩ = .ok (e, d)) (hend : d.peek.kind = .eof) :
    (⟨t, ts⟩ : Item).isDecl = false ∧ t.kind ≠ .kwModule := by
  have hnot : t.kind ∉ [.bang, .kwImport, .kwModule] := fun hk =>
    not_operation (c := ⟨t :: ts, stop, []⟩) hk h
  simp only [List.mem_cons, List.not_mem_nil, or_false, not_or] at hnot
  refine ⟨?_, hnot.2.2⟩
  by_contra hdecl
  rw [Bool.not_eq_false, Item.isDecl] at hdecl
  cases hk : t.kind with
  | ident =>
    simp only [hk] at hdecl
    have hmore := within_operation (Nat.le_add_right n 3) 0 _ _ _ h
    rw [operation] at hmore
    obtain ⟨left, c₁, hleft, hmore⟩ := bind_ok hmore
    rw [operand, run_bind, run_peek] at hleft
    simp only [Cursor.peek, List.headD_cons, hk] at hleft
    rw [application] at hleft
    obtain ⟨fn, c₂, hfn, hleft⟩ := bind_ok hleft
    obtain rfl := (Operand.var hk).after_atom hfn
    obtain ⟨as, c₃, has, hleft⟩ := bind_ok hleft
    cases hleft
    have hsign := arguments_decl _ rfl hdecl has
    rw [operationFrom, run_bind, run_get] at hmore
    simp only at hmore
    rw [if_pos (Or.inl fun hop => by simp [hop] at hsign)] at hmore
    cases hmore
    simp [hend] at hsign
  | _ => simp_all

end

end Grammar

namespace Fragment

open Grammar

theorem ofText_of_readAs {source text : String} {x : Lexed} {e : Expr}
    (hlex : Lexed.ofText source text = .ok x)
    (hone : ∀ t ∈ x.tokens.tail, Item.startsItem t = false) (h : ReadAs x.tokens e) :
    ∃ e', ofText source text = .ok (.expression e') ∧ e'.erase = e := by
  obtain ⟨toks, stop⟩ := x
  obtain ⟨m, hread⟩ := h
  obtain ⟨e', c, hrun, rfl, he⟩ := hread m (Nat.le_refl m) [] stop [] (shuts_nil [])
  rw [List.append_nil] at hrun
  cases toks with
  | nil => exact absurd hrun (operation_nil rfl m 0)
  | cons t ts =>
    obtain ⟨hdecl, hmodule⟩ := isDecl_of_operation hrun rfl
    have hsplit : Item.split (t :: ts) = [⟨t, ts⟩] := by
      have hends : Item.Ends [] := nofun
      have hcons : Item.split (t :: ts ++ []) = ⟨t, ts⟩ :: Item.split [] :=
        Item.split_cons hone hends
      rwa [List.append_nil] at hcons
    have hexpr : expr.runAll (t :: ts) stop = .ok e' := by
      refine Reader.runAll_ok.mpr ⟨⟨[], stop, []⟩, ?_, rfl⟩
      rw [run_expr]
      exact ((sufficient m).operation 0 _ _ _ hrun).2 _ (by simp [Grammar.fuel]; omega)
    refine ⟨e', ?_, he⟩
    unfold ofText
    rw [hlex]
    simp only [if_neg hmodule]
    rw [hsplit, ofItems, if_neg (by simp [hdecl]), if_neg (by simp [hdecl]), hexpr]

/-- **Layout and semicolons agree.** An expression on one line and a drawing of it are read as the
same tree, but for its places: in any place where nothing goes on with them, and as texts in which
no line but the first has a token in column 1. -/
theorem drawings_agree {source source' a b : String} {x y : Lexed} {e : Expr}
    (h : Drawn x.tokens y.tokens e) (hx : Lexed.ofText source a = .ok x)
    (hy : Lexed.ofText source' b = .ok y) (hline : ∀ t ∈ x.tokens.tail, t.startsLine = false)
    (hcol : ∀ t ∈ y.tokens.tail, t.startsLine = true → t.pos.col ≠ 1) :
    (ReadAs x.tokens e ∧ ReadAs y.tokens e) ∧
    (∃ e₁, ofText source a = .ok (.expression e₁) ∧ e₁.erase = e) ∧
    ∃ e₂, ofText source' b = .ok (.expression e₂) ∧ e₂.erase = e := by
  obtain ⟨hreads, hreads'⟩ := h.readAs
  refine ⟨⟨hreads, hreads'⟩, ofText_of_readAs hx (fun t ht => ?_) hreads,
    ofText_of_readAs hy (fun t ht => ?_) hreads'⟩
  · simp [Item.startsItem, hline t ht]
  · have ht' := hcol t ht
    simpa [Item.startsItem] using ht'

namespace Nested

def tok (kind : TokenKind) (text : String) (line col : Int) : Token := ⟨kind, text, ⟨line, col⟩, false⟩

def new (kind : TokenKind) (text : String) (line col : Int) : Token := ⟨kind, text, ⟨line, col⟩, true⟩

def beside : Lexed where
  tokens := [new .kwLet "let" 1 1, tok .ident "o" 1 5, tok .equals "=" 1 7, tok .lparen "(" 1 9,
    tok .kwLet "let" 1 10, tok .ident "x" 1 14, tok .equals "=" 1 16, tok .int "1" 1 18,
    tok .semi ";" 1 19, tok .ident "y" 1 21, tok .equals "=" 1 23, tok .ident "x" 1 25,
    tok .kwIn "in" 1 27, tok .ident "y" 1 30, tok .rparen ")" 1 31,
    tok .semi ";" 1 32, tok .ident "z" 1 34, tok .equals "=" 1 36, tok .ident "o" 1 38,
    tok .kwIn "in" 1 40, tok .ident "z" 1 43]
  stop := ⟨1, 44⟩

def below : Lexed where
  tokens := [new .kwLet "let" 1 1, tok .ident "o" 1 5, tok .equals "=" 1 7, tok .lparen "(" 1 9,
    tok .kwLet "let" 1 10, tok .ident "x" 1 14, tok .equals "=" 1 16, tok .int "1" 1 18,
    new .ident "y" 2 14, tok .equals "=" 2 16, tok .ident "x" 2 18,
    new .kwIn "in" 3 3, tok .ident "y" 3 6, tok .rparen ")" 3 7,
    new .ident "z" 4 5, tok .equals "=" 4 7, tok .ident "o" 4 9,
    new .kwIn "in" 5 3, tok .ident "z" 5 6]
  stop := ⟨5, 7⟩

def tree : Expr :=
  .letIn .start
    [⟨.start, "o", [], false, .letIn .start
      [⟨.start, "x", [], false, .int .start 1⟩, ⟨.start, "y", [], false, .var .start "x"⟩]
      (.var .start "y")⟩,
    ⟨.start, "z", [], false, .var .start "o"⟩]
    (.var .start "z")

end Nested

theorem lexed_of_eq {source text : String} {x : Lexed}
    (h : (Lexed.ofText source text).toOption.map (fun z => (z.tokens, z.stop)) =
      some (x.tokens, x.stop)) : Lexed.ofText source text = .ok x := by
  cases hread : Lexed.ofText source text with
  | error e => rw [hread] at h; cases h
  | ok z =>
    rw [hread] at h
    cases x
    cases h
    rfl

theorem drawn_word {t : Token} (t' : Token) (e : Expr) (hkind : t'.kind = t.kind)
    (htext : t'.text = t.text) (heof : t.kind ≠ .eof) (h : expr.runAll [t] t.pos = .ok e) :
    Drawn [t] [t'] e.erase := by
  refine @Drawn.line [.word t t'] t.pos e ⟨by simp, .singleton _⟩ ?_ h
  intro p hp
  cases List.mem_singleton.mp hp
  exact .word hkind htext heof

open Nested in
theorem drawn_nested : Drawn Nested.beside.tokens Nested.below.tokens Nested.tree := by
  have row : ∀ {t t' q q' : Token} {ws ts : List Token} {e : Expr}, t.kind = .ident →
      t'.kind = .ident → t'.text = t.text → q.kind = .equals → q'.kind = .equals → Drawn ws ts e →
      Grammar.Row (t :: q :: ws) (t' :: q' :: ts) ⟨.start, t.text, [], false, e⟩ :=
    fun ht ht' htext hq hq' h => .names ht ht' htext (.nil hq) (.nil hq') h
  have hone := drawn_word (t := tok .int "1" 1 18) (tok .int "1" 1 18) (.int ⟨1, 18⟩ 1) rfl rfl
    (by decide) rfl
  have hx := drawn_word (t := tok .ident "x" 1 25) (tok .ident "x" 2 18) (.var ⟨1, 25⟩ "x") rfl rfl
    (by decide) rfl
  have hy := drawn_word (t := tok .ident "y" 1 30) (tok .ident "y" 3 6) (.var ⟨1, 30⟩ "y") rfl rfl
    (by decide) rfl
  have ho := drawn_word (t := tok .ident "o" 1 38) (tok .ident "o" 4 9) (.var ⟨1, 38⟩ "o") rfl rfl
    (by decide) rfl
  have hz := drawn_word (t := tok .ident "z" 1 43) (tok .ident "z" 5 6) (.var ⟨1, 43⟩ "z") rfl rfl
    (by decide) rfl
  have hrow₁ := @row (tok .ident "x" 1 14) (tok .ident "x" 1 14) (tok .equals "=" 1 16)
    (tok .equals "=" 1 16) _ _ _ rfl rfl rfl rfl rfl hone
  have hrow₂ := @row (tok .ident "y" 1 21) (new .ident "y" 2 14) (tok .equals "=" 1 23)
    (tok .equals "=" 2 16) _ _ _ rfl rfl rfl rfl rfl hx
  have hlast : Rows (new .ident "y" 2 14).pos.col _ _ _ := .single hrow₂
  have hrows := Rows.newLine (s := tok .semi ";" 1 19) rfl rfl rfl hrow₁ hlast
  have hlet := @Laid.mk _ (tok .kwLet "let" 1 10) (tok .kwLet "let" 1 10) _ _
    (tok .kwIn "in" 1 27) (new .kwIn "in" 3 3) _ _ _ _ _ _ rfl rfl rfl rfl hrows rfl hy
  have hparens := @Drawn.parens (tok .lparen "(" 1 9) (tok .lparen "(" 1 9)
    (tok .rparen ")" 1 31) (tok .rparen ")" 3 7) _ _ _ rfl rfl rfl rfl (.letIn hlet)
  have hrow₃ := @row (tok .ident "o" 1 5) (tok .ident "o" 1 5) (tok .equals "=" 1 7)
    (tok .equals "=" 1 7) _ _ _ rfl rfl rfl rfl rfl hparens
  have hrow₄ := @row (tok .ident "z" 1 34) (new .ident "z" 4 5) (tok .equals "=" 1 36)
    (tok .equals "=" 4 7) _ _ _ rfl rfl rfl rfl rfl ho
  have hlast : Rows (new .ident "z" 4 5).pos.col _ _ _ := .single hrow₄
  have hrows := Rows.newLine (s := tok .semi ";" 1 32) rfl rfl rfl hrow₃ hlast
  exact .letIn (@Laid.mk _ (new .kwLet "let" 1 1) (new .kwLet "let" 1 1) _ _
    (tok .kwIn "in" 1 40) (new .kwIn "in" 5 3) _ _ _ _ _ _ rfl rfl rfl rfl hrows rfl hz)

/-- A `let` in parentheses, in a binding of another one that is laid out further left. -/
theorem drawings_agree_nested :
    let a := "let o = (let x = 1; y = x in y); z = o in z"
    let b := "let o = (let x = 1\n             y = x\n  in y)\n    z = o\n  in z"
    Drawn Nested.beside.tokens Nested.below.tokens Nested.tree ∧
    Lexed.ofText "s" a = .ok Nested.beside ∧ Lexed.ofText "s" b = .ok Nested.below ∧
    (∀ t ∈ Nested.beside.tokens.tail, t.startsLine = false) ∧
    (∀ t ∈ Nested.below.tokens.tail, t.startsLine = true → t.pos.col ≠ 1) ∧
    (ReadAs Nested.beside.tokens Nested.tree ∧ ReadAs Nested.below.tokens Nested.tree) ∧
    (∃ e₁, ofText "s" a = .ok (.expression e₁) ∧ e₁.erase = Nested.tree) ∧
    ∃ e₂, ofText "s" b = .ok (.expression e₂) ∧ e₂.erase = Nested.tree := by
  intro a b
  have ha : Lexed.ofText "s" a = .ok Nested.beside := lexed_of_eq (by decide +kernel)
  have hb : Lexed.ofText "s" b = .ok Nested.below := lexed_of_eq (by decide +kernel)
  have hline : ∀ t ∈ Nested.beside.tokens.tail, t.startsLine = false := by decide +kernel
  have hcol : ∀ t ∈ Nested.below.tokens.tail, t.startsLine = true → t.pos.col ≠ 1 := by
    decide +kernel
  exact ⟨drawn_nested, ha, hb, hline, hcol, drawings_agree drawn_nested ha hb hline hcol⟩

end Fragment

end LazySession

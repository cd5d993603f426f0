import LazySession.Proofs.Lang.Precedence
import LazySession.Proofs.Lang.Sufficiency

/-!
# Expressions wherever they stand

`Grammar.ReadAs`: the tokens are read as one expression, but for its places, under the columns of any
blocks and in front of anything that does not go on with it. What is read as an expression on a line
of its own has this (`Line.readAs`), and so have an expression in parentheses and a `let` whose
bindings have it.
-/

namespace LazySession

def BindingOf.erase (b : Binding) : Binding := ⟨.start, b.name, b.params, b.strict, b.body.erase⟩

theorem BindingOf.move_start (b : Binding) : b.move (fun _ => .start) = b.erase := by
  rw [move, Expr.move_start, erase]

theorem Expr.eraseBinds_eq (bs : List Binding) : eraseBinds bs = bs.map BindingOf.erase := by
  rw [← moveBinds_start, moveBinds_eq]
  exact List.map_congr_left fun b _ => b.move_start

namespace Grammar

open Reader Sides Pair

/-! ## What is read in any place -/

def ReadAs (ts : List Token) (e : Expr) : Prop :=
  ∃ m, ∀ n, m ≤ n → ∀ rest stop layout, Shuts layout rest →
    (operation n 0).Yields ⟨ts ++ rest, stop, layout⟩ fun a c =>
      c = ⟨rest, stop, layout⟩ ∧ a.erase = e

def BoundAs (ts : List Token) (b : Binding) : Prop :=
  ∃ m, ∀ n, m ≤ n → ∀ rest stop layout, Shuts layout rest →
    (binding n false).Yields ⟨ts ++ rest, stop, layout⟩ fun a c =>
      c = ⟨rest, stop, layout⟩ ∧ a.erase = b

/-- The tokens are read as bindings of a block in the column, in front of `in`. -/
def RowsAs (col : Int) (ts : List Token) (bs : List Binding) : Prop :=
  ∃ m, ∀ n, m ≤ n → ∀ done i rest stop layout, i.kind = .kwIn →
    (bindings n col done).Yields ⟨ts ++ i :: rest, stop, col :: layout⟩ fun as c =>
      c = ⟨i :: rest, stop, col :: layout⟩ ∧ ∃ bs', as = done.reverse ++ bs' ∧
        bs'.map BindingOf.erase = bs

section
variable {layout : List Int} {rest ts us : List Token} {t i : Token} {stop : Pos} {e : Expr}
variable {b : Binding} {bs : List Binding} {n level : Nat}

theorem shuts_nil (layout : List Int) : Shuts layout [] := nofun

theorem shuts_cons (hop : t.kind ≠ .op) (hatom : startsAtom t = false) : Shuts layout (t :: ts) := by
  intro u hu hgo
  cases hu
  simp [hop, hatom] at hgo

theorem endsRow_of_shuts (h : Shuts layout rest) (stop : Pos) : EndsRow ⟨rest, stop, layout⟩ := by
  cases rest with
  | nil => exact .inr ⟨by simp [Cursor.peek, Token.eof], rfl⟩
  | cons t ts =>
    by_cases hgo : t.kind = .op ∨ startsAtom t = true
    · exact .inl ((Cursor.atBoundary_eq _).trans (h t rfl hgo))
    · rw [not_or, Bool.not_eq_true] at hgo
      exact .inr hgo

theorem yields_operationFrom_closed (h : Shuts layout rest) (stop : Pos) (left : Expr)
    {Q : Expr → Cursor → Prop} (hQ : Q left ⟨rest, stop, layout⟩) :
    (operationFrom (n + 1) level left).Yields ⟨rest, stop, layout⟩ Q :=
  ⟨_, _, run_operationFrom_end (endsRow_of_shuts h stop) n level left, hQ⟩

theorem yields_arguments_closed (h : Shuts layout rest) (stop : Pos) (done : List Expr)
    {Q : List Expr → Cursor → Prop} (hQ : Q done.reverse ⟨rest, stop, layout⟩) :
    (arguments (n + 1) done).Yields ⟨rest, stop, layout⟩ Q := by
  rw [arguments]
  refine yields_get ?_
  rw [if_neg]
  · exact yields_pure hQ
  · rintro ⟨hstarts, hb⟩
    rw [Cursor.atBoundary_eq] at hb
    cases rest with
    | nil => cases hstarts
    | cons t ts => exact hb (h t rfl (.inr hstarts))

/-! ## Parentheses -/

theorem group_of_readAs {l r : Token} (hl : l.kind = .lparen) (hr : r.kind = .rparen)
    (h : ReadAs ts e) : ∃ fuel, Group (fun _ => .start) fuel l (ts ++ [r]) e := by
  obtain ⟨m, hread⟩ := h
  have hopens : ∀ rest stop layout,
      (Cursor.peek ⟨ts ++ r :: rest, stop, layout⟩).kind ≠ .rparen ∧
        ¬ ((Cursor.peek ⟨ts ++ r :: rest, stop, layout⟩).kind = .op ∧
          (Cursor.peekSecond ⟨ts ++ r :: rest, stop, layout⟩).kind = .rparen) := by
    intro rest stop layout
    obtain ⟨a, c, hrun, -⟩ := hread m (Nat.le_refl m) (r :: rest) stop layout
      (shuts_cons (by simp [hr]) (by simp [startsAtom, hr]))
    exact opens_of_operation hrun
  refine ⟨m + 2, hl, ?_, fun n hn rest stop layout => ?_⟩
  · cases ts with
    | nil => exact absurd hr (hopens [] .start []).1
    | cons u us => exact ⟨u, us ++ [r], rfl, (hopens [] .start []).1⟩
  · obtain ⟨n, rfl⟩ : ∃ k, n = k + 2 := ⟨n - 2, by omega⟩
    have hatom : (atom (n + 2)).Yields ⟨l :: (ts ++ r :: rest), stop, layout⟩ fun a c =>
        c = ⟨rest, stop, layout⟩ ∧ a.erase = e := by
      rw [atom]
      refine yields_peek ?_
      simp only [hl]
      refine yields_skip ?_
      rw [parenthesized]
      refine yields_get ?_
      rw [if_neg (hopens rest stop layout).1, if_neg (hopens rest stop layout).2]
      refine yields_bind (yields_withColumn ((hread n (by omega) (r :: rest) stop (0 :: layout)
        (shuts_cons (by simp [hr]) (by simp [startsAtom, hr]))).mono ?_))
      rintro a c ⟨rfl, ha⟩
      exact yields_expect hr (yields_pure ⟨rfl, ha⟩)
    obtain ⟨a, c, hrun, rfl, ha⟩ := hatom
    refine ⟨a, ?_, by rw [Expr.move_start, ha]⟩
    simpa using hrun

theorem readAs_of_group {fuel : Nat} (h : Group (fun _ => .start) fuel t ts e) :
    ReadAs (t :: ts) e := by
  refine ⟨fuel + 4, fun n hn rest stop layout hc => ?_⟩
  obtain ⟨n, rfl⟩ : ∃ k, n = k + 4 := ⟨n - 4, by omega⟩
  obtain ⟨a, hrun, ha⟩ := h.reads (n + 1) (by omega) rest stop layout
  rw [Expr.move_start] at ha
  have happlication : (application (n + 2)).Yields ⟨t :: ts ++ rest, stop, layout⟩ fun a' c =>
      c = ⟨rest, stop, layout⟩ ∧ a'.erase = e := by
    rw [application]
    refine yields_bind ⟨a, _, hrun, yields_bind (yields_arguments_closed hc stop [] ?_)⟩
    exact yields_pure ⟨rfl, ha⟩
  have hk : (Cursor.peek ⟨t :: ts ++ rest, stop, layout⟩).kind ∉
      [.backslash, .kwLet, .kwIf, .op] := by
    simp [Cursor.peek, h.opens]
  rw [operation]
  refine yields_bind ((yields_operand hk happlication).mono ?_)
  rintro a' c ⟨rfl, ha'⟩
  exact yields_operationFrom_closed hc stop a' ⟨rfl, ha'⟩

/-! ## Bindings -/

theorem BoundAs.opens (h : BoundAs ts b) : ∃ u us, ts = u :: us ∧ u.kind = .ident := by
  obtain ⟨m, hread⟩ := h
  obtain ⟨a, c, hrun, -⟩ := hread (m + 1) (Nat.le_succ m) [] .start [] (shuts_nil [])
  rw [binding] at hrun
  obtain ⟨u, c₁, hu, -⟩ := bind_ok hrun
  obtain ⟨us, hus, hk, -⟩ := expect_cons (by simp) hu
  exact ⟨u, us, by simpa using hus, hk⟩

/-- What is in front of the expression that a name stands for. -/
inductive Header : List Token → List Param → Prop
  | nil {q : Token} (hq : q.kind = .equals) : Header [q] []
  | named {t : Token} {ts : List Token} {ps : List Param} (ht : t.kind = .ident)
    (h : Header ts ps) : Header (t :: ts) (.named t.text :: ps)
  | unit {l r : Token} {ts : List Token} {ps : List Param} (hl : l.kind = .lparen)
    (hr : r.kind = .rparen) (h : Header ts ps) : Header (l :: r :: ts) (.unit :: ps)

theorem Header.paramsFrom {ps : List Param} (h : Header ts ps) : ∃ q : Token, q.kind = .equals ∧
    ∀ done more, paramsFrom done (ts ++ more) = (done.reverse ++ ps, q :: more) := by
  induction h with
  | @nil q hq =>
    refine ⟨q, hq, fun done more => ?_⟩
    rw [List.singleton_append, paramsFrom_other (by simp [hq]) (by simp [hq]), List.append_nil]
  | named ht _ ih =>
    obtain ⟨q, hq, hrun⟩ := ih
    refine ⟨q, hq, fun done more => ?_⟩
    rw [List.cons_append, paramsFrom_ident ht, hrun]
    simp
  | unit hl hr _ ih =>
    obtain ⟨q, hq, hrun⟩ := ih
    refine ⟨q, hq, fun done more => ?_⟩
    rw [List.cons_append, List.cons_append, paramsFrom_unit hl hr, hrun]
    simp

theorem boundAs_of_header {ps : List Param} (ht : t.kind = .ident) (hps : Header ts ps)
    (h : ReadAs us e) : BoundAs (t :: ts ++ us) ⟨.start, t.text, ps, false, e⟩ := by
  obtain ⟨m, hread⟩ := h
  obtain ⟨q, hq, hparams⟩ := hps.paramsFrom
  refine ⟨m + 1, fun n hn rest stop layout hc => ?_⟩
  obtain ⟨n, rfl⟩ : ∃ k, n = k + 1 := ⟨n - 1, by omega⟩
  have hrun : params.run ⟨ts ++ (us ++ rest), stop, layout⟩ =
      .ok (ps, ⟨q :: (us ++ rest), stop, layout⟩) := by
    rw [run_params]
    simp only [hparams, List.reverse_nil, List.nil_append]
  rw [binding, List.append_assoc, List.cons_append]
  refine yields_expect ht (yields_bind ⟨ps, _, hrun, yields_expect hq ?_⟩)
  rw [if_neg (by simp)]
  refine yields_bind ((hread n (by omega) rest stop layout hc).mono ?_)
  rintro a c ⟨rfl, ha⟩
  exact yields_pure ⟨rfl, by simp [BindingOf.erase, ha]⟩

/-! ## Blocks -/

theorem rowsAs_single (col : Int) (h : BoundAs ts b) : RowsAs col ts [b] := by
  obtain ⟨m, hread⟩ := h
  refine ⟨m + 1, fun n hn done i rest stop layout hi => ?_⟩
  obtain ⟨n, rfl⟩ : ∃ k, n = k + 1 := ⟨n - 1, by omega⟩
  rw [bindings]
  refine yields_bind ((hread n (by omega) (i :: rest) stop (col :: layout)
    (shuts_cons (by simp [hi]) (by simp [startsAtom, hi]))).mono ?_)
  rintro b' c ⟨rfl, hb⟩
  refine yields_peek ?_
  rw [if_neg (by simp [hi]), if_pos hi]
  exact yields_pure ⟨rfl, [b'], by simp, by simp [hb]⟩

theorem rowsAs_semi {col : Int} {s : Token} (hs : s.kind = .semi) (h : BoundAs ts b)
    (hrows : RowsAs col us bs) : RowsAs col (ts ++ s :: us) (b :: bs) := by
  obtain ⟨m₁, hread⟩ := h
  obtain ⟨m₂, hmore⟩ := hrows
  refine ⟨m₁ + m₂ + 1, fun n hn done i rest stop layout hi => ?_⟩
  obtain ⟨n, rfl⟩ : ∃ k, n = k + 1 := ⟨n - 1, by omega⟩
  rw [bindings, List.append_assoc, List.cons_append]
  refine yields_bind ((hread n (by omega) _ stop (col :: layout)
    (shuts_cons (by simp [hs]) (by simp [startsAtom, hs]))).mono ?_)
  rintro b' c ⟨rfl, hb⟩
  refine yields_peek ?_
  rw [if_pos hs]
  refine yields_skip ((hmore n (by omega) (b' :: done) i rest stop layout hi).mono ?_)
  rintro as c ⟨rfl, bs', rfl, hbs⟩
  exact ⟨rfl, b' :: bs', by simp, by simp [hb, hbs]⟩

theorem RowsAs.opens {col : Int} {u : Token} (h : RowsAs col (u :: us) bs) : u.kind = .ident := by
  obtain ⟨m, hread⟩ := h
  let i : Token := ⟨.kwIn, "in", .start, false⟩
  obtain ⟨a, c, hrun, -⟩ := hread (m + 2) (Nat.le_add_right m 2) [] i [] .start [] rfl
  rw [bindings, binding] at hrun
  obtain ⟨b, c₁, hb, -⟩ := bind_ok hrun
  exact expect_ok hb

theorem rowsAs_line {col : Int} {u : Token} (hline : u.startsLine = true)
    (hcol : u.pos.col = col) (h : BoundAs ts b) (hrows : RowsAs col (u :: us) bs) :
    RowsAs col (ts ++ u :: us) (b :: bs) := by
  have hu := hrows.opens
  obtain ⟨m₁, hread⟩ := h
  obtain ⟨m₂, hmore⟩ := hrows
  refine ⟨m₁ + m₂ + 1, fun n hn done i rest stop layout hi => ?_⟩
  obtain ⟨n, rfl⟩ : ∃ k, n = k + 1 := ⟨n - 1, by omega⟩
  have hends : Shuts (col :: layout) (u :: us ++ i :: rest) := by
    intro v hv _
    cases hv
    simp [Cursor.bounds, hline, hcol]
  rw [bindings, List.append_assoc]
  refine yields_bind ((hread n (by omega) _ stop (col :: layout) hends).mono ?_)
  rintro b' c ⟨rfl, hb⟩
  refine yields_peek ?_
  rw [if_neg (by simp [hu]), if_neg (by simp [hu]), if_pos ⟨hu, hline, hcol⟩]
  refine (hmore n (by omega) (b' :: done) i rest stop layout hi).mono ?_
  rintro as c ⟨rfl, bs', rfl, hbs⟩
  exact ⟨rfl, b' :: bs', by simp, by simp [hb, hbs]⟩

theorem block_of_rows {u : Token} (ht : t.kind = .kwLet) (hi : i.kind = .kwIn)
    (hrows : RowsAs u.pos.col (u :: us) bs) (hbody : ReadAs ts e) :
    ∃ fuel, Block (fun _ => .start) fuel t (u :: us ++ i :: ts) (.letIn .start bs e) := by
  have hu := hrows.opens
  obtain ⟨m₁, hread₁⟩ := hrows
  obtain ⟨m₂, hread₂⟩ := hbody
  refine ⟨m₁ + m₂ + 1, ht, fun n hn rest stop layout hc => ?_⟩
  obtain ⟨n, rfl⟩ : ∃ k, n = k + 1 := ⟨n - 1, by omega⟩
  have hlet : (letIn (n + 1)).Yields ⟨t :: (u :: us ++ i :: (ts ++ rest)), stop, layout⟩ fun a c =>
      c = ⟨rest, stop, layout⟩ ∧ a.erase = .letIn .start bs e := by
    rw [letIn]
    refine yields_next (yields_peek ?_)
    rw [if_neg (not_not.mpr hu)]
    refine yields_bind (yields_withColumn ((hread₁ n (by omega) [] i (ts ++ rest) stop layout
      hi).mono ?_))
    rintro as c ⟨rfl, bs', rfl, hbs⟩
    refine yields_expect hi (yields_bind ((hread₂ n (by omega) rest stop layout hc).mono ?_))
    rintro a c ⟨rfl, ha⟩
    exact yields_pure ⟨rfl, by simp [Expr.erase, Expr.eraseBinds_eq, hbs, ha]⟩
  obtain ⟨a, c, hrun, rfl, ha⟩ := hlet
  refine ⟨a, ?_, by rw [Expr.move_start, ha]⟩
  simpa using hrun

theorem readAs_of_block {fuel : Nat} (h : Block (fun _ => .start) fuel t ts e) :
    ReadAs (t :: ts) e := by
  refine ⟨fuel + 3, fun n hn rest stop layout hc => ?_⟩
  obtain ⟨n, rfl⟩ : ∃ k, n = k + 3 := ⟨n - 3, by omega⟩
  obtain ⟨a, hrun, ha⟩ := h.reads (n + 1) (by omega) rest stop layout hc
  rw [Expr.move_start] at ha
  rw [operation, operand]
  refine yields_bind (yields_peek ?_)
  simp only [h.opens]
  exact ⟨a, _, hrun, yields_operationFrom_closed hc stop a ⟨rfl, ha⟩⟩

end

/-! ## Lines -/

/-- No piece but the first starts a line on either side, and what is behind a `let` expression does
not go on with it. -/
structure Line (ps : List Pair) : Prop where
  inline : ∀ p ∈ ps.tail, p.first.startsLine = false ∧ p.first'.startsLine = false
  meets : ps.IsChain Meets

section
variable {f g : Pos → Pos} {fuel : Nat} {ps : List Pair}

theorem Line.paired (h : Line ps) (hfits : ∀ p ∈ ps, p.Fits f g fuel) : Paired f g fuel ps := by
  have hbounds : ∀ p ∈ ps.tail, ∀ layout layout',
      Cursor.bounds layout p.first = Cursor.bounds layout' p.first' := by
    intro p hp layout layout'
    obtain ⟨hfirst, hfirst'⟩ := h.inline p hp
    cases layout <;> cases layout' <;> simp [Cursor.bounds, hfirst, hfirst']
  refine ⟨hfits, fun p hp => hbounds p hp [0] [0], h.meets, ?_⟩
  have heven : ∀ p ∈ ps.tail, ∀ x x', p.Even x x' := by
    intro p hp x x'
    obtain ⟨hfirst, hfirst'⟩ := h.inline p hp
    exact ⟨hbounds p hp [x] [x'], by simp [hfirst, hfirst']⟩
  cases ps with
  | nil => exact .nil
  | cons p ps =>
    have hpairs : ps.Pairwise fun p q => q.Even p.first.pos.col p.first'.pos.col :=
      List.pairwise_of_forall_mem_list fun _ _ q hq => heven q hq _ _
    exact hpairs.cons fun q hq => heven q hq _ _

theorem Line.under (h : Line ps) (layout layout' : List Int) : Under layout layout' ps.tail := by
  intro p hp
  obtain ⟨hfirst, hfirst'⟩ := h.inline p hp
  cases layout <;> cases layout' <;> simp [Cursor.bounds, hfirst, hfirst']

/-- What the first reader reads to its end, the second reads in front of what closes it. -/
theorem yields_of_follows {α : Type} {R : α → α → Prop} {r r' : Reader α} {a : α} {stop stop' : Pos}
    {layout : List Int} {rest : List Token} (hk : ∀ p ∈ ps, p.first.kind ≠ .eof)
    (h : (⟨stop, stop', rest⟩ : Sides).Follows (Shuts layout rest) R r r' [] layout ps ps.tail)
    (hc : Shuts layout rest) (hrun : r.runAll (lefts ps) stop = .ok a) :
    r'.Yields ⟨rights ps ++ rest, stop', layout⟩ fun a' c =>
      c = ⟨rest, stop', layout⟩ ∧ R a a' := by
  obtain ⟨c, hrun, hend⟩ := runAll_ok.mp hrun
  obtain ⟨qs, a', hqs, rfl, hR, hrun'⟩ := h a c hrun
  cases qs with
  | nil => exact ⟨a', _, hrun' fun _ => hc, rfl, hR⟩
  | cons q qs =>
    rw [peek_left] at hend
    exact absurd hend (hk q (List.mem_of_mem_tail (hqs.subset List.mem_cons_self)))

theorem runAll_of_within {α : Type} {r r' : Reader α} (h : r.Within r') {ts : List Token} {stop : Pos}
    {a : α} (hrun : r.runAll ts stop = .ok a) : r'.runAll ts stop = .ok a := by
  obtain ⟨c, hrun, hend⟩ := runAll_ok.mp hrun
  exact runAll_ok.mpr ⟨c, h _ _ _ hrun, hend⟩

variable (hline : Line ps) (hfits : ∀ p ∈ ps, p.Fits (fun _ => .start) (fun _ => .start) fuel)
variable (hk : ∀ p ∈ ps, p.first.kind ≠ .eof)
include hline hfits hk

theorem Line.readAs {e : Expr} {stop : Pos} (h : expr.runAll (lefts ps) stop = .ok e) :
    ReadAs (rights ps) e.erase := by
  obtain ⟨c, hrun, hend⟩ := runAll_ok.mp h
  rw [run_expr] at hrun
  refine ⟨Grammar.fuel ⟨lefts ps, stop, []⟩ + fuel, fun n hn rest stop' layout hc => ?_⟩
  obtain ⟨n, rfl⟩ : ∃ k, n = k + fuel := ⟨n - fuel, by omega⟩
  have hleft : (operation n 0).runAll (lefts ps) stop = .ok e :=
    runAll_of_within (within_operation (by omega) 0) (runAll_ok.mpr ⟨c, hrun, hend⟩)
  have hfollows := (abreast (fun _ => .start) (fun _ => .start) fuel ⟨stop, stop', rest⟩ n).operation 0
    [] layout ps (hline.paired hfits) (hline.under [] layout)
  refine (yields_of_follows hk hfollows hc hleft).mono ?_
  rintro a d ⟨rfl, ha⟩
  exact ⟨rfl, by rw [← Expr.move_start, ← Expr.move_start]; exact ha.symm⟩

theorem Line.boundAs {m : Nat} {b : Binding} {stop : Pos}
    (h : (binding m false).runAll (lefts ps) stop = .ok b) : BoundAs (rights ps) b.erase := by
  refine ⟨m + fuel, fun n hn rest stop' layout hc => ?_⟩
  obtain ⟨n, rfl⟩ : ∃ k, n = k + fuel := ⟨n - fuel, by omega⟩
  have hleft : (binding n false).runAll (lefts ps) stop = .ok b :=
    runAll_of_within (within_of_le (fun n => (fueled n).binding false) (by omega)) h
  have hfollows := (abreast (fun _ => .start) (fun _ => .start) fuel ⟨stop, stop', rest⟩ n).binding
    false [] layout ps (hline.paired hfits) (hline.under [] layout)
  refine (yields_of_follows hk hfollows hc hleft).mono ?_
  rintro a d ⟨rfl, ha⟩
  exact ⟨rfl, by rw [← BindingOf.move_start, ← BindingOf.move_start]; exact ha.symm⟩

end

end Grammar

end LazySession

import LazySession.Proofs.Indexed.Reading
import LazySession.Proofs.Lang.Progress

/-!
# A position and a cursor

`Indexed.Mirrors`: a reader by index and a reader of cursors, started where a position and a cursor stand
for the same tokens and the same columns, end in the same way. The two kinds of readers are put together
by the same few rules.
-/

namespace LazySession

theorem Grammar.paramsFrom_stop {c : Cursor} (h : c.peek.kind ≠ .ident)
    (h' : ¬ (c.peek.kind = .lparen ∧ c.peekSecond.kind = .rparen)) (done : List Param) :
    paramsFrom done c.toks = (done.reverse, c.toks) := by
  obtain ⟨toks, stop, layout⟩ := c
  cases toks with
  | nil => rfl
  | cons t ts =>
    refine paramsFrom_other h (fun hk u hu hunit => h' ⟨hk, ?_⟩) done
    cases ts with
    | nil => cases hu
    | cons v vs =>
      cases hu
      exact hunit

namespace Indexed

variable {α β : Type} {all : List Token} {s s' : State} {c d : Cursor} {E E' : Prop}

/-! ## Lists -/

theorem index_eq_ok {xs : List α} {i : Nat} {x : α} (h : xs[i]? = some x) :
    index xs (i : Int) = .ok x := by
  unfold index
  rw [if_neg (by omega), Int.toNat_natCast, h]

theorem index_append (before : List α) (x : α) (behind : List α) :
    index (before ++ x :: behind) before.length = .ok x :=
  index_eq_ok (by simp)

theorem index_last (before : List α) (x : α) :
    index (before ++ [x]) ((before ++ [x]).length - 1) = .ok x := by
  have hlen : (((before ++ [x]).length : Int) - 1) = (before.length : Int) := by
    rw [List.length_append, List.length_singleton]
    omega
  rw [hlen]
  exact index_append before x []

theorem slice_append (before mid behind : List α) :
    slice (before ++ mid ++ behind) before.length (before.length + mid.length) = .ok mid := by
  unfold slice
  rw [if_pos (by simp only [List.length_append]; omega)]
  have hhi : ((before.length : Int) + mid.length).toNat = (before ++ mid).length := by
    rw [List.length_append]
    omega
  rw [hhi, List.take_left, Int.toNat_natCast, List.drop_left]

theorem slice_front (front behind : List α) : slice (front ++ behind) 0 front.length = .ok front := by
  have h := slice_append [] front behind
  simpa using h

theorem slice_rest (before rest : List α) :
    slice (before ++ rest) before.length (before ++ rest).length = .ok rest := by
  have h := slice_append before rest []
  simpa using h

theorem slice_pop (front : List α) (x : α) :
    slice (front ++ [x]) 0 ((front ++ [x]).length - 1) = .ok front := by
  have hlen : (((front ++ [x]).length : Int) - 1) = (front.length : Int) := by
    rw [List.length_append, List.length_singleton]
    omega
  rw [hlen]
  exact slice_front front [x]

/-! ## Qualified names -/

theorem lastDot_append (mod : List Char) {name : List Char} (h : '.' ∉ name) :
    lastDot (mod ++ '.' :: name) = mod.length := by
  have hidx : (mod ++ '.' :: name).reverse.idxOf? '.' = some name.length := by
    have hrev : (mod ++ '.' :: name).reverse = name.reverse ++ '.' :: mod.reverse := by simp
    rw [hrev, List.idxOf?_eq_some_iff]
    refine ⟨by simp, by simp, fun j hj heq => h ?_⟩
    rw [List.getElem_append_left (by simpa using hj)] at heq
    rw [← List.mem_reverse, ← heq]
    exact List.getElem_mem _
  unfold lastDot
  rw [hidx]
  simp only [List.length_append, List.length_cons]
  omega

theorem splitQualified_append (mod : List Char) {name : List Char} (h : '.' ∉ name) :
    Grammar.splitQualified (String.ofList (mod ++ '.' :: name)) =
      (String.ofList mod, String.ofList name) := by
  have hrev : (mod ++ '.' :: name).reverse = name.reverse ++ '.' :: mod.reverse := by simp
  have hname : ∀ c ∈ name.reverse, (c != '.') = true := by
    intro c hc
    have hne : c ≠ '.' := fun he => h (List.mem_reverse.mp (he ▸ hc))
    simpa using hne
  unfold Grammar.splitQualified
  simp only [String.toList_ofList, hrev]
  rw [List.dropWhile_append_of_pos hname, List.takeWhile_append_of_pos hname]
  simp

theorem cutQualified_eq {s : String} (h : '.' ∈ s.toList) :
    cutQualified s = .ok (Grammar.splitQualified s) := by
  obtain ⟨front, behind, hcs, hname⟩ := List.eq_append_cons_of_mem (List.mem_reverse.mpr h)
  obtain ⟨mod, name, hs, hdot⟩ : ∃ mod name, s = String.ofList (mod ++ '.' :: name) ∧ '.' ∉ name := by
    refine ⟨behind.reverse, front.reverse, ?_, by simpa using hname⟩
    rw [← String.ofList_toList (s := s), ← List.reverse_reverse s.toList, hcs]
    simp
  have hmod := slice_front mod ('.' :: name)
  have hrest : slice (mod ++ '.' :: name) (mod.length + 1) (mod ++ '.' :: name).length = .ok name := by
    have h := slice_rest (mod ++ ['.']) name
    simpa using h
  subst hs
  rw [splitQualified_append mod hdot]
  unfold cutQualified
  simp only [String.toList_ofList, lastDot_append mod hdot, hmod, hrest]
  rfl

theorem cutQualified_missing {s : String} (h : '.' ∉ s.toList) :
    cutQualified s = .error .outOfRange := by
  have hidx : s.toList.reverse.idxOf? '.' = none :=
    List.idxOf?_eq_none_iff.mpr fun hmem => h (List.mem_reverse.mp hmem)
  have hdot : lastDot s.toList = -1 := by
    unfold lastDot
    rw [hidx]
  unfold cutQualified slice
  simp only [hdot]
  rfl

/-! ## Where both stand -/

theorem run_bind (x : Reader α) (f : α → Reader β) (s : State) :
    (x >>= f).run s = match x.run s with
      | .ok (a, s') => (f a).run s'
      | .error e => .error e := by
  simp only [StateT.run_bind]
  cases x.run s <;> rfl

theorem run_lift (e : Except Halt α) (s : State) :
    (liftM e : Reader α).run s = match e with
      | .ok a => .ok (a, s)
      | .error h => .error h := by
  cases e <;> rfl

/-- The position in the list `all` and the cursor have the same tokens ahead and the same columns
around. -/
structure Stands (all : List Token) (s : State) (c : Cursor) : Prop where
  toks : s.toks = all
  split : ∃ before, all = before ++ (c.toks ++ [.eof c.stop]) ∧ s.pos = before.length
  layout : s.layout = c.layout.reverse

theorem exists_peek (c : Cursor) : ∃ rest, c.toks ++ [.eof c.stop] = c.peek :: rest := by
  obtain ⟨toks, stop, layout⟩ := c
  cases toks with
  | nil => exact ⟨[], rfl⟩
  | cons t ts => exact ⟨ts ++ [.eof stop], rfl⟩

theorem Stands.mem_peek (hs : Stands all s c) : c.peek ∈ all := by
  obtain ⟨before, hall, -⟩ := hs.split
  obtain ⟨rest, hrest⟩ := exists_peek c
  rw [hall, hrest]
  simp

theorem Stands.index_pos (hs : Stands all s c) : index s.toks s.pos = .ok c.peek := by
  obtain ⟨before, hall, hpos⟩ := hs.split
  obtain ⟨rest, hrest⟩ := exists_peek c
  rw [hs.toks, hall, hpos, hrest]
  exact index_append _ _ _

theorem Stands.run_peek (hs : Stands all s c) : peek.run s = .ok (c.peek, s) := by
  change (liftM (index s.toks s.pos) : Reader Token).run s = _
  rw [run_lift, hs.index_pos]

theorem Stands.advance (hs : Stands all s c) (hk : c.peek.kind ≠ .eof) :
    Stands all { s with pos := s.pos + 1 } c.advance := by
  obtain ⟨before, hall, hpos⟩ := hs.split
  refine ⟨hs.toks, ⟨before ++ [c.peek], ?_, ?_⟩, hs.layout⟩
  · rw [hall, LazySession.Reader.toks_eq_advance hk]
    simp [Cursor.advance]
  · simp [hpos]

theorem Stands.run_next (hs : Stands all s c) :
    ∃ s', next.run s = .ok (c.peek, s') ∧ (c.peek.kind ≠ .eof → Stands all s' c.advance) := by
  have hrun : next.run s = .ok (c.peek, if c.peek.kind ≠ .eof then { s with pos := s.pos + 1 } else s) := by
    unfold next
    rw [run_bind]
    change ((liftM (index s.toks s.pos) : Reader Token) >>= _).run s = _
    rw [run_bind, run_lift, hs.index_pos]
    by_cases hk : c.peek.kind ≠ .eof
    · simp only [if_pos hk]
      rfl
    · simp only [if_neg hk]
      rfl
  refine ⟨_, hrun, fun hk => ?_⟩
  rw [if_pos hk]
  exact hs.advance hk

theorem Stands.run_peekSecond (hs : Stands all s c) :
    peekSecond.run s = .ok (c.peekSecond, s) := by
  obtain ⟨before, hall, hpos⟩ := hs.split
  have hrun : peekSecond.run s = (if s.toks.length ≤ s.pos + 1
      then (liftM (index s.toks (s.toks.length - 1)) : Reader Token)
      else liftM (index s.toks (s.pos + 1))).run s := rfl
  rw [hrun, hs.toks, hpos, hall]
  cases htoks : c.toks with
  | nil =>
    rw [if_pos (by simp), List.nil_append, run_lift, index_last]
    simp [Cursor.peekSecond, htoks]
  | cons t ts =>
    have hlen : ¬ (before ++ (t :: ts ++ [Token.eof c.stop])).length ≤ before.length + 1 := by
      simp only [List.length_append, List.length_cons]
      omega
    have hnext : (before ++ (t :: ts ++ [Token.eof c.stop]))[before.length + 1]? =
        some c.peekSecond := by
      rw [List.getElem?_append_right (by omega)]
      have hsub : before.length + 1 - before.length = 1 := by omega
      rw [hsub]
      cases ts <;> simp [Cursor.peekSecond, htoks]
    rw [if_neg hlen, run_lift]
    have hindex := index_eq_ok hnext
    push_cast at hindex
    rw [hindex]

theorem Stands.run_atBoundary (hs : Stands all s c) :
    atBoundary.run s = .ok (c.atBoundary, s) := by
  have hrun : atBoundary.run s = (if s.layout.length = 0 then (return false : Reader Bool)
      else do
        let t ← peek
        let col ← index s.layout (s.layout.length - 1)
        return t.startsLine && t.pos.col ≤ col).run s := rfl
  rw [hrun, hs.layout]
  unfold Cursor.atBoundary
  cases c.layout with
  | nil => rfl
  | cons col cols =>
    rw [if_neg (by simp), run_bind, hs.run_peek]
    simp only [List.reverse_cons]
    rw [run_bind, run_lift, index_last]
    rfl

theorem Stands.run_goesOn (hs : Stands all s c) (p : Token → Bool) :
    (goesOn p).run s = .ok (p c.peek && !c.atBoundary, s) := by
  unfold goesOn
  rw [run_bind, hs.run_peek]
  cases hp : p c.peek with
  | false =>
    simp only [hp]
    rfl
  | true =>
    simp only [hp, if_true]
    rw [run_bind, hs.run_atBoundary]
    rfl

/-! ## Ending alike -/

/-- From `s`, the reader by index ends as told, or in a way that `E` rules out. -/
def Mirrors (all : List Token) (E : Prop) (x : Reader α) (s : State)
    (told : Except Issue (α × Cursor)) : Prop :=
  match x.run s with
  | .ok (a, s') => ∃ d, told = .ok (a, d) ∧ Stands all s' d
  | .error (.issue i) => told = .error i
  | .error _ => ¬ E

section
variable {x : Reader α} {r : LazySession.Reader α} {f : α → Reader β}
  {g : α → LazySession.Reader β} {told : Except Issue (α × Cursor)}

theorem mirrors_pure (hs : Stands all s c) (a : α) :
    Mirrors all E (pure a) s ((pure a : LazySession.Reader α).run c) :=
  ⟨c, rfl, hs⟩

theorem mirrors_fail (t : Token) (fault : SyntaxFault) (s : State) (c : Cursor) :
    Mirrors all E (fail t fault : Reader α) s ((LazySession.Reader.fail t fault).run c) := rfl

theorem mirrors_tooDeep (h : ¬ E) : Mirrors all E (tooDeep : Reader α) s told := h

theorem Mirrors.mono (h : Mirrors all E' x s told) (hE : E → E') : Mirrors all E x s told := by
  unfold Mirrors at h ⊢
  cases hx : x.run s with
  | ok p => rw [hx] at h; exact h
  | error e =>
    rw [hx] at h
    cases e with
    | issue i => exact h
    | _ => exact fun hE' => h (hE hE')

theorem mirrors_bind (hx : Mirrors all E x s (r.run c))
    (hf : ∀ a s' d, r.run c = .ok (a, d) → Stands all s' d → Mirrors all E (f a) s' ((g a).run d)) :
    Mirrors all E (x >>= f) s ((r >>= g).run c) := by
  unfold Mirrors at hx ⊢
  rw [run_bind, LazySession.Reader.run_bind]
  cases hr : x.run s with
  | ok p =>
    rw [hr] at hx
    obtain ⟨d, hd, hs'⟩ := hx
    rw [hd]
    exact hf p.1 p.2 d hd hs'
  | error e =>
    rw [hr] at hx
    cases e with
    | issue i =>
      simp only at hx ⊢
      rw [hx]
    | _ => exact hx

theorem mirrors_step {told : Except Issue (β × Cursor)} {a : α} (hx : x.run s = .ok (a, s'))
    (h : Mirrors all E (f a) s' told) : Mirrors all E (x >>= f) s told := by
  unfold Mirrors at h ⊢
  rw [run_bind, hx]
  exact h

theorem mirrors_get {x : Reader β} {g : Cursor → LazySession.Reader β}
    (h : Mirrors all E x s ((g c).run c)) : Mirrors all E x s ((get >>= g).run c) := h

theorem mirrors_peek {f : Token → Reader β} {g : Token → LazySession.Reader β} (hs : Stands all s c)
    (h : Mirrors all E (f c.peek) s ((g c.peek).run c)) :
    Mirrors all E (peek >>= f) s ((LazySession.Reader.peek >>= g).run c) :=
  mirrors_step hs.run_peek h

/-- Behind the token that stands for the end, the two part. -/
theorem mirrors_next {f : Token → Reader β} {g : Token → LazySession.Reader β} (hs : Stands all s c)
    (h : ∀ s', (c.peek.kind ≠ .eof → Stands all s' c.advance) →
      Mirrors all E (f c.peek) s' ((g c.peek).run c.advance)) :
    Mirrors all E (next >>= f) s ((LazySession.Reader.next >>= g).run c) := by
  obtain ⟨s', hrun, hs'⟩ := hs.run_next
  exact mirrors_step hrun (h s' hs')

theorem mirrors_skip {f : Token → Reader β} {g : Unit → LazySession.Reader β} (hs : Stands all s c)
    (hk : c.peek.kind ≠ .eof)
    (h : ∀ s', Stands all s' c.advance → Mirrors all E (f c.peek) s' ((g ()).run c.advance)) :
    Mirrors all E (next >>= f) s ((LazySession.Reader.skip >>= g).run c) := by
  obtain ⟨s', hrun, hs'⟩ := hs.run_next
  exact mirrors_step hrun (h s' (hs' hk))

theorem mirrors_expect (hs : Stands all s c) {kind : TokenKind} (hk : kind ≠ .eof) (what : String) :
    Mirrors all E (expect kind what) s ((LazySession.Reader.expect kind what).run c) := by
  unfold expect
  apply mirrors_step hs.run_peek
  change Mirrors all E _ s (StateT.run (if c.peek.kind = kind then LazySession.Reader.next
    else LazySession.Reader.fail c.peek (.expected what c.peek)) c)
  by_cases hkind : c.peek.kind = kind
  · rw [if_pos hkind, if_pos hkind]
    obtain ⟨s', hrun, hs'⟩ := hs.run_next
    unfold Mirrors
    rw [hrun]
    exact ⟨c.advance, rfl, hs' (hkind ▸ hk)⟩
  · rw [if_neg hkind, if_neg hkind]
    exact mirrors_fail _ _ s c

theorem mirrors_expectEnd (hs : Stands all s c) :
    Mirrors all E expectEnd s (LazySession.Reader.expectEnd.run c) := by
  unfold expectEnd
  apply mirrors_step hs.run_peek
  change Mirrors all E _ s (StateT.run (if c.peek.kind = .eof then (return () : LazySession.Reader Unit)
    else LazySession.Reader.fail c.peek (.unexpected c.peek)) c)
  by_cases hkind : c.peek.kind = .eof
  · rw [if_pos hkind, if_pos hkind]
    exact mirrors_pure hs ()
  · rw [if_neg hkind, if_neg hkind]
    exact mirrors_fail _ _ s c

theorem Stands.push (hs : Stands all s c) (col : Int) :
    Stands all { s with layout := s.layout ++ [col] } { c with layout := col :: c.layout } :=
  ⟨hs.toks, hs.split, by rw [hs.layout, List.reverse_cons]⟩

/-- The column that is taken off again is the one that was put on, since the reader in between leaves
the columns as they are. -/
theorem mirrors_withColumn {col : Int} {least : Nat}
    (hr : r.Consumes least { c with layout := col :: c.layout })
    (h : Mirrors all E x { s with layout := s.layout ++ [col] }
      (r.run { c with layout := col :: c.layout })) :
    Mirrors all E (withColumn col x) s ((LazySession.Reader.withColumn col r).run c) := by
  unfold withColumn
  have hpush : (modify fun s => { s with layout := s.layout ++ [col] } : Reader PUnit).run s =
      .ok ((), { s with layout := s.layout ++ [col] }) := rfl
  refine mirrors_step hpush ?_
  change Mirrors all E _ _ ((r >>= fun a => do
    modify fun c => { c with layout := c.layout.tail }
    return a).run { c with layout := col :: c.layout })
  refine mirrors_bind h fun a s' d hrun hs' => ?_
  have hlayout : d.layout = col :: c.layout := (hr a d hrun).layout
  have hpop : slice s'.layout 0 (s'.layout.length - 1) = .ok c.layout.reverse := by
    rw [hs'.layout, hlayout, List.reverse_cons]
    exact slice_pop _ _
  change Mirrors all E ((liftM (slice s'.layout 0 (s'.layout.length - 1)) : Reader (List Int)) >>=
    fun layout => do
      set { s' with layout }
      return a) s' _
  refine mirrors_step (by rw [run_lift, hpop]) ?_
  exact ⟨_, rfl, hs'.toks, hs'.split, by simp only [hlayout, List.tail_cons]⟩

theorem mirrors_params (n : Nat) (done : List Param) (hs : Stands all s c)
    (hE : E → c.toks.length < n) :
    Mirrors all E (params n done) s
      (.ok ((Grammar.paramsFrom done c.toks).1,
        { c with toks := (Grammar.paramsFrom done c.toks).2 })) := by
  induction n generalizing done s c with
  | zero => exact mirrors_tooDeep fun h => Nat.not_lt_zero _ (hE h)
  | succ n ih =>
    unfold params
    apply mirrors_step hs.run_peek
    by_cases hident : c.peek.kind = .ident
    · have hk : c.peek.kind ≠ .eof := by rw [hident]; decide
      obtain ⟨s', hrun, hs'⟩ := hs.run_next
      have hlen := (Cursor.consumed_advance hk).length_le
      have htoks : c.toks = c.peek :: c.advance.toks := LazySession.Reader.toks_eq_advance hk
      rw [if_pos hident, htoks, Grammar.paramsFrom_ident hident]
      exact mirrors_step hrun (ih _ (hs' hk) fun h => by have := hE h; omega)
    · rw [if_neg hident]
      by_cases hparen : c.peek.kind = .lparen
      · rw [if_pos hparen]
        apply mirrors_step hs.run_peekSecond
        by_cases hunit : c.peekSecond.kind = .rparen
        · have hk : c.peek.kind ≠ .eof := by rw [hparen]; decide
          have hk' : c.advance.peek.kind ≠ .eof := by
            rw [show c.advance.peek = c.peekSecond from rfl, hunit]
            decide
          obtain ⟨s', hrun, hs'⟩ := hs.run_next
          obtain ⟨s'', hrun', hs''⟩ := (hs' hk).run_next
          have hlen := ((Cursor.consumed_advance hk).trans (Cursor.consumed_advance hk')).length_le
          have htoks : c.toks = c.peek :: c.peekSecond :: c.advance.advance.toks :=
            (LazySession.Reader.toks_eq_advance hk).trans
              (congrArg _ (LazySession.Reader.toks_eq_advance hk'))
          rw [if_pos hunit, htoks, Grammar.paramsFrom_unit hparen hunit]
          refine mirrors_step hrun (mirrors_step hrun' ?_)
          exact ih _ (hs'' hk') fun h => by have := hE h; omega
        · rw [if_neg hunit, Grammar.paramsFrom_stop hident (fun h => hunit h.2)]
          exact mirrors_pure hs _
      · rw [if_neg hparen, Grammar.paramsFrom_stop hident (fun h => hparen h.1)]
        exact mirrors_pure hs _

theorem mirrors_checkChain (hs : Stands all s c) (t : Token) (op : Operator) :
    Mirrors all E (checkChain t op) s ((Grammar.checkChain t op).run c) := by
  unfold checkChain Grammar.checkChain
  change Mirrors all E _ s (StateT.run (if op.associativity = .none ∧ c.peek.kind = .op ∧
    ¬ c.atBoundary = true then _ else _) c)
  by_cases hop : op.associativity = .none
  · rw [if_pos hop]
    refine mirrors_step hs.run_peek (mirrors_step (hs.run_goesOn _) ?_)
    by_cases hgo : c.peek.kind = .op ∧ ¬ c.atBoundary = true
    · rw [if_pos (by simpa using hgo), if_pos ⟨hop, hgo⟩]
      cases Operator.ofText? c.peek.text with
      | none => exact mirrors_pure hs ()
      | some op' =>
        by_cases hlevel : op'.level = op.level
        · simp only [if_pos hlevel]
          exact mirrors_fail _ _ s c
        · simp only [if_neg hlevel]
          exact mirrors_pure hs ()
    · rw [if_neg (by simpa using hgo), if_neg fun h => hgo h.2]
      exact mirrors_pure hs ()
  · rw [if_neg hop, if_neg fun h => hop h.1]
    exact mirrors_pure hs ()

theorem mirrors_cutQualified {f : String × String → Reader β} {told : Except Issue (β × Cursor)}
    {text : String} (hE : E → '.' ∈ text.toList)
    (h : Mirrors all E (f (Grammar.splitQualified text)) s told) :
    Mirrors all E ((liftM (cutQualified text) : Reader (String × String)) >>= f) s told := by
  by_cases hdot : '.' ∈ text.toList
  · exact mirrors_step (by rw [run_lift, cutQualified_eq hdot]) h
  · unfold Mirrors
    rw [run_bind, run_lift, cutQualified_missing hdot]
    exact fun hE' => hdot (hE hE')

end

end Indexed

end LazySession

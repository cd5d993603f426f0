import LazySession.Proofs.Indexed.Whole

/-!
# Every text is read to an end

`Indexed.total_progressive_balanced`: reading by index misses nothing, enters no branch that is not
meant to be and comes to an end, with a tree or with faults, for every text; and what succeeds in
between has moved on by a token at least, has not left the tokens and has put the columns back. The
readers of cursors, which read the same trees, do so alike.
-/

namespace LazySession

namespace Indexed

variable {α : Type} {all : List Token} {s : State} {c : Cursor} {n : Nat}

/-- A success ends behind one more token at least, none of which stands for the end, and still among
the tokens. These and the columns of the blocks around are as before. -/
def Advances (x : Reader α) (s : State) : Prop :=
  ∀ a s', x.run s = .ok (a, s') →
    s.pos < s'.pos ∧ s'.pos < s'.toks.length ∧ s'.toks = s.toks ∧ s'.layout = s.layout ∧
      ∀ i t, s.pos ≤ i → i < s'.pos → s.toks[i]? = some t → t.kind ≠ .eof

theorem Mirrors.advances {E : Prop} {x : Reader α} {r : LazySession.Reader α}
    (h : Mirrors all E x s (r.run c)) (hs : Stands all s c) (hr : r.Consumes 1 c) : Advances x s := by
  intro a s' hrun
  unfold Mirrors at h
  rw [hrun] at h
  obtain ⟨d, hd, hs'⟩ := h
  have hc := hr a d hd
  obtain ⟨taken, htoks, hlen, hkind⟩ := hc.toks
  obtain ⟨before, hall, hpos⟩ := hs.split
  obtain ⟨before', hall', hpos'⟩ := hs'.split
  obtain rfl : before' = before ++ taken := by
    rw [hall, htoks, hc.stop, List.append_assoc, ← List.append_assoc before] at hall'
    exact (List.append_cancel_right hall').symm
  -- what the cursor gave up stands between the two positions
  have hmid : all = before ++ taken ++ (d.toks ++ [.eof d.stop]) := hall'
  rw [List.length_append] at hpos'
  refine ⟨by omega, ?_, hs'.toks.trans hs.toks.symm, ?_, fun i t hi hi' ht => ?_⟩
  · rw [hs'.toks, hmid, hpos']
    simp
  · rw [hs'.layout, hs.layout, hc.layout]
  · rw [hs.toks, hmid, List.getElem?_append_left (by rw [List.length_append]; omega),
      List.getElem?_append_right (by omega)] at ht
    exact hkind t (List.mem_of_getElem? ht)

/-- Where the tokens `before` were read and those in `rest` were not. -/
def State.between (before rest : List Token) (stop : Pos) (layout : List Int) : State :=
  ⟨before ++ (rest ++ [.eof stop]), before.length, layout⟩

theorem stands_between (before rest : List Token) (stop : Pos) (layout : List Int) :
    Stands (before ++ (rest ++ [.eof stop])) (.between before rest stop layout)
      ⟨rest, stop, layout.reverse⟩ :=
  ⟨rfl, ⟨before, rfl, rfl⟩, by simp [State.between]⟩

theorem Follows.advances {cost : Nat} {x : Reader α} {r : Nat → LazySession.Reader α}
    (h : Follows all n cost x r c) (hs : Stands all s c) (hr : ∀ m, (r m).Consumes 1 c) :
    Advances x s :=
  -- the reader of cursors gets as much fuel as it takes; the one by index has any
  (h (8 * c.toks.length + cost) s hs (Nat.le_refl _)).advances hs (hr _)

/-- A tree and no faults, or no tree and some fault. -/
def Outcome.Decided (o : Outcome α) : Prop :=
  (∃ a, o = (some a, [])) ∨ ∃ e es, o = (none, e :: es)

theorem decided_outcome {r : Except (List SyntaxError) α} (h : ∀ es, r = .error es → es ≠ []) :
    (outcome r).Decided := by
  cases r with
  | ok a => exact .inl ⟨a, rfl⟩
  | error es =>
    cases es with
    | nil => exact absurd rfl (h [] rfl)
    | cons e es => exact .inr ⟨e, es, rfl⟩

/-- Eight calls for each character and eight more are enough for every text: then reading by index halts
nowhere, and ends with the tree or with the faults of the text. In any list of tokens that ends where
the input does, at any place and with any columns around, what an expression, a type, a binding or
an atom is read from is a token or more, the end is not passed and the columns are put back; so it is
when they are read from the cursor that stands there. -/
theorem total_progressive_balanced :
    (∀ (source text : String) (n : Nat),
      readFragment (n + 8 * (text.length + 1)) source text =
          .ok (outcome (Fragment.ofText source text)) ∧
        readModule (n + 8 * (text.length + 1)) source text =
          .ok (outcome (Module.ofText source text)) ∧
        (outcome (Fragment.ofText source text)).Decided ∧
        (outcome (Module.ofText source text)).Decided) ∧
      ∀ (before rest : List Token) (stop : Pos) (layout : List Int) (n : Nat),
        Advances (expr n) (.between before rest stop layout) ∧
          Advances (typeExpr n) (.between before rest stop layout) ∧
          (∀ strict, Advances (binding n strict) (.between before rest stop layout)) ∧
          Advances (atom n) (.between before rest stop layout) ∧
          Grammar.expr.Consumes 1 ⟨rest, stop, layout.reverse⟩ ∧
          (Grammar.typeExpr n).Consumes 1 ⟨rest, stop, layout.reverse⟩ ∧
          (∀ strict, (Grammar.binding n strict).Consumes 1 ⟨rest, stop, layout.reverse⟩) ∧
          (Grammar.atom n).Consumes 1 ⟨rest, stop, layout.reverse⟩ := by
  refine ⟨fun source text n => ?_, fun before rest stop layout n => ?_⟩
  · have hn : 8 * (text.toList.length + 1) ≤ n + 8 * (text.length + 1) := by
      rw [String.length_toList]
      omega
    refine ⟨readFragment_eq hn, readModule_eq hn, ?_, ?_⟩
    · exact decided_outcome fun es => Fragment.ofText_error
    · exact decided_outcome fun es => Module.ofText_error
  · have hs := stands_between before rest stop layout
    refine ⟨?_, ?_, fun strict => ?_, ?_, Grammar.consumes_expr _, Grammar.consumes_typeExpr n _,
      fun strict => (Grammar.consuming n).binding strict _, (Grammar.consuming n).atom _⟩
    · exact ((following _ n).operation 0 _).advances hs fun m => (Grammar.consuming m).operation 0 _
    · exact ((types_follow _ n).typeExpr _).advances hs fun m => Grammar.consumes_typeExpr m _
    · exact ((following _ n).binding strict _).advances hs fun m => (Grammar.consuming m).binding strict _
    · exact ((following _ n).atom _).advances hs fun m => (Grammar.consuming m).atom _

/-- A call in a block, up to the end. -/
example : ((expr 8).run (.between [] [⟨.ident, "f", ⟨1, 3⟩, true⟩, ⟨.int, "7", ⟨1, 5⟩, false⟩] ⟨1, 6⟩
    [3, 0])).map (fun p => (p.2.pos, p.2.layout)) = .ok (2, [3, 0]) := by
  decide

end Indexed

end LazySession

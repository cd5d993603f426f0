import LazySession.Proofs.Lang.Layout

/-!
# Where tokens stand in the source

`Token.Laid before ts rest`: the tokens are written in `rest`, behind `before`, one after the other,
and there is nothing but white space and comments between them. `Lexed.laid_ofText`: this is so for
every text that is accepted, with the positions that the tokens have.
-/

namespace LazySession

open Text

/-! ## Order of positions -/

namespace Pos

/-- The place comes first, line by line and then column by column. -/
def Before (p q : Pos) : Prop := p.line < q.line ∨ p.line = q.line ∧ p.col < q.col

instance (p q : Pos) : Decidable (p.Before q) :=
  inferInstanceAs (Decidable (p.line < q.line ∨ p.line = q.line ∧ p.col < q.col))

theorem Before.trans {p q r : Pos} (h : p.Before q) (h' : q.Before r) : p.Before r := by
  unfold Before at *
  omega

theorem Before.ne {p q : Pos} (h : p.Before q) : p ≠ q := by
  intro he
  subst he
  unfold Before at h
  omega

theorem before_step (p : Pos) (c : Char) : p.Before (p.step c) := by
  unfold Before step
  by_cases hc : c = '\n'
  · rw [if_pos hc]
    exact .inl (Int.lt_succ p.line)
  · rw [if_neg hc]
    exact .inr ⟨rfl, Int.lt_succ p.col⟩

theorem after_append (p : Pos) (cs ds : List Char) : p.after (cs ++ ds) = (p.after cs).after ds := by
  simp [after]

theorem before_after (p : Pos) {cs : List Char} (h : cs ≠ []) : p.Before (p.after cs) := by
  induction cs generalizing p with
  | nil => exact absurd rfl h
  | cons c cs ih =>
    by_cases hcs : cs = []
    · subst hcs
      exact before_step p c
    · exact (before_step p c).trans (ih (p.step c) hcs)

theorem line_le_after (p : Pos) (cs : List Char) : p.line ≤ (p.after cs).line := by
  by_cases h : cs = []
  · simp [h, after]
  · have hlt := before_after p h
    unfold Before at hlt
    omega

theorem line_after (p : Pos) (cs : List Char) : (p.after cs).line = p.line ↔ '\n' ∉ cs := by
  induction cs generalizing p with
  | nil => simp [after]
  | cons c cs ih =>
    have hstep : p.after (c :: cs) = (p.step c).after cs := rfl
    by_cases hc : c = '\n'
    · have hle := line_le_after (p.step c) cs
      have hline : (p.step c).line = p.line + 1 := by simp [step, hc]
      rw [hstep]
      simp [hc]
      rw [← hc]
      omega
    · have hline : (p.step c).line = p.line := by simp [step, hc]
      rw [hstep, ← hline, ih]
      simp [Ne.symm hc]

end Pos

/-! ## White space and comments -/

/-- The rest of a block comment up to its end. Comments nest. -/
inductive CommentRest : List Char → Prop
  | close : CommentRest ['-', '}']
  | char {c : Char} {cs : List Char} (ho : ¬ ['{', '-'] <+: c :: cs) (hc : ¬ ['-', '}'] <+: c :: cs)
    (h : CommentRest cs) : CommentRest (c :: cs)
  | nested {inner cs : List Char} (hi : CommentRest inner) (h : CommentRest cs) :
    CommentRest ('{' :: '-' :: (inner ++ cs))

/-- White space and comments in front of `rest`. A line comment goes up to the end of its line. -/
inductive Gap (rest : List Char) : List Char → Prop
  | nil : Gap rest []
  | blank {c : Char} {cs : List Char} (hc : isBlank c) (h : Gap rest cs) : Gap rest (c :: cs)
  | line {dashes text cs : List Char} (h2 : 2 ≤ dashes.length) (hd : ∀ c ∈ dashes, c = '-')
    (hs : ∀ c ∈ text.head?, isSymbol c = false) (hn : '\n' ∉ text)
    (he : ∀ c ∈ (cs ++ rest).head?, c = '\n') (h : Gap rest cs) : Gap rest (dashes ++ text ++ cs)
  | block {inner cs : List Char} (hi : CommentRest inner) (h : Gap rest cs) :
    Gap rest ('{' :: '-' :: (inner ++ cs))

/-! ## Spans -/

/-- Between its quotes, a string literal has four escapes; all else stands for itself. -/
inductive Denotes : List Char → List Char → Prop
  | nil : Denotes [] []
  | plain {c : Char} {cs ts : List Char} (hc : c ≠ '"' ∧ c ≠ '\\' ∧ c ≠ '\n') (h : Denotes cs ts) :
    Denotes (c :: cs) (c :: ts)
  | escape {d e : Char} {cs ts : List Char}
    (he : (d, e) ∈ [('n', '\n'), ('t', '\t'), ('\\', '\\'), ('"', '"')]) (h : Denotes cs ts) :
    Denotes ('\\' :: d :: cs) (e :: ts)

/-- What a token of a class with some text can be written as. -/
def Spells (kind : TokenKind) (text : String) (span : List Char) : Prop :=
  if kind = .string then ∃ body, span = '"' :: (body ++ ['"']) ∧ Denotes body text.toList
  else span = text.toList

theorem Denotes.snoc_plain {cs ts : List Char} (h : Denotes cs ts) {c : Char}
    (hc : c ≠ '"' ∧ c ≠ '\\' ∧ c ≠ '\n') : Denotes (cs ++ [c]) (ts ++ [c]) := by
  induction h with
  | nil => exact .plain hc .nil
  | plain hd _ ih => exact .plain hd ih
  | escape he _ ih => exact .escape he ih

theorem Denotes.snoc_escape {cs ts : List Char} (h : Denotes cs ts) {d e : Char}
    (he : (d, e) ∈ [('n', '\n'), ('t', '\t'), ('\\', '\\'), ('"', '"')]) :
    Denotes (cs ++ ['\\', d]) (ts ++ [e]) := by
  induction h with
  | nil => exact .escape he .nil
  | plain hd _ ih => exact .plain hd ih
  | escape he' _ ih => exact .escape he' ih

theorem Denotes.no_line {cs ts : List Char} (h : Denotes cs ts) : '\n' ∉ cs := by
  induction h with
  | nil => simp
  | plain hc _ ih => simp [Ne.symm hc.2.2, ih]
  | escape he _ ih =>
    simp at he
    rcases he with ⟨rfl, _⟩ | ⟨rfl, _⟩ | ⟨rfl, _⟩ | ⟨rfl, _⟩ <;> simp [ih]

/-- The tokens stand in `rest`, which follows `before` in the source. -/
inductive Token.Laid : List Char → List Token → List Char → Prop
  | nil {before gap : List Char} (hg : Gap [] gap) : Laid before [] gap
  | cons {before gap span rest : List Char} {t : Token} {ts : List Token}
    (hg : Gap (span ++ rest) gap) (hp : t.pos = Pos.start.after (before ++ gap))
    (hs : Spells t.kind t.text span) (hne : span ≠ []) (hl : '\n' ∉ span)
    (h : Laid (before ++ gap ++ span) ts rest) : Laid before (t :: ts) (gap ++ (span ++ rest))

/-! ## One lexeme -/

namespace Lexeme

theorem mem_escapes_of_unescape? {d e : Char} (h : unescape? d = some e) :
    (d, e) ∈ [('n', '\n'), ('t', '\t'), ('\\', '\\'), ('"', '"')] := by
  unfold unescape? at h
  by_cases hn : d = 'n'
  · simp [hn] at h
    simp [hn, ← h]
  · by_cases ht : d = 't'
    · simp [ht] at h
      simp [ht, ← h]
    · by_cases hb : d = '\\' ∨ d = '"'
      · simp [hn, ht, hb] at h
        subst h
        rcases hb with rfl | rfl <;> simp
      · simp [hn, ht, hb] at h

theorem spells_stringFrom {raw text cs rest body : List Char} {l : Lexeme}
    (hraw : raw.reverse = '"' :: body) (hb : Denotes body text.reverse)
    (h : stringFrom raw text cs = .ok (l, rest)) :
    raw.reverse ++ cs = l.raw ++ rest ∧
      ∃ t, l.token? = some (.string, t) ∧ Spells .string t l.raw := by
  fun_induction stringFrom raw text cs generalizing body with
  | case1 | case2 | case4 | case6 => cases h
  | case3 raw text cs =>
    cases h
    refine ⟨by simp, _, rfl, ?_⟩
    simp only [Spells, if_true]
    exact ⟨body, by simp [hraw], by simpa using hb⟩
  | case5 raw text d cs e he _ _ ih =>
    have hraw' : (d :: '\\' :: raw).reverse = '"' :: (body ++ ['\\', d]) := by simp [hraw]
    have hb' := hb.snoc_escape (mem_escapes_of_unescape? he)
    obtain ⟨hsplit, ht⟩ := ih hraw' (by simpa using hb') h
    refine ⟨?_, ht⟩
    rw [← hsplit]
    simp
  | case7 raw text c cs hn hq hs ih =>
    have hraw' : (c :: raw).reverse = '"' :: (body ++ [c]) := by simp [hraw]
    have hb' := hb.snoc_plain ⟨hq, hs, hn⟩
    obtain ⟨hsplit, ht⟩ := ih hraw' (by simpa using hb') h
    refine ⟨?_, ht⟩
    rw [← hsplit]
    simp

/-- A comment at `depth` ends as many comments around it as well. -/
inductive CommentRests : Nat → List Char → Prop
  | one {cs : List Char} (h : CommentRest cs) : CommentRests 0 cs
  | more {depth : Nat} {inner cs : List Char} (hi : CommentRest inner) (h : CommentRests depth cs) :
    CommentRests (depth + 1) (inner ++ cs)

theorem CommentRests.char {depth : Nat} {c : Char} {cs : List Char} (h : CommentRests depth cs)
    (ho : ¬ ['{', '-'] <+: c :: cs) (hc : ¬ ['-', '}'] <+: c :: cs) :
    CommentRests depth (c :: cs) := by
  cases h with
  | one h => exact .one (.char ho hc h)
  | @more _ inner cs hi h =>
    have hpre : c :: inner <+: c :: (inner ++ cs) := List.prefix_append (c :: inner) cs
    exact .more (.char (fun hp => ho (hp.trans hpre)) (fun hp => hc (hp.trans hpre)) hi) h

theorem rests_commentFrom {depth : Nat} {raw cs rest : List Char} {l : Lexeme}
    (h : commentFrom depth raw cs = .ok (l, rest)) :
    ∃ more, CommentRests depth more ∧ cs = more ++ rest ∧ l = blank (raw.reverse ++ more) := by
  fun_induction commentFrom depth raw cs with
  | case1 | case2 => cases h
  | case3 depth raw c d cs hc ih =>
    obtain ⟨more, hm, rfl, rfl⟩ := ih h
    obtain ⟨rfl, rfl⟩ := hc
    cases hm with
    | @more _ inner cs hi hm =>
      refine ⟨'{' :: '-' :: (inner ++ cs), ?_, by simp, by simp⟩
      cases hm with
      | one hm => exact .one (.nested hi hm)
      | more hi' hm => simpa using CommentRests.more (.nested hi hi') hm
  | case4 raw c d cs _ hq =>
    cases h
    obtain ⟨rfl, rfl⟩ := hq
    exact ⟨['-', '}'], .one .close, rfl, by simp⟩
  | case5 raw c d cs _ hq depth ih =>
    obtain ⟨more, hm, rfl, rfl⟩ := ih h
    obtain ⟨rfl, rfl⟩ := hq
    exact ⟨['-', '}'] ++ more, .more .close hm, rfl, by simp⟩
  | case6 depth raw c d cs hc hq ih =>
    obtain ⟨more, hm, hcs, rfl⟩ := ih h
    have hpre : ∀ x y : Char, ¬ (c = x ∧ d = y) → ¬ [x, y] <+: c :: more := by
      intro x y hne hp
      have hp' : [x, y] <+: c :: d :: cs := hcs ▸ hp.trans (List.prefix_append (c :: more) rest)
      simp at hp'
      exact hne ⟨hp'.1.symm, hp'.2.symm⟩
    exact ⟨c :: more, hm.char (hpre _ _ hc) (hpre _ _ hq), by simp [hcs], by simp⟩

theorem ne_line_of_class {p : Char → Bool} (hp : p '\n' = false) {c : Char} (hc : p c = true) :
    '\n' ≠ c := by
  intro he
  subst he
  simp [hp] at hc

theorem not_line_takeWhile {p : Char → Bool} (hp : p '\n' = false) (cs : List Char) :
    '\n' ∉ cs.takeWhile p :=
  fun hm => ne_line_of_class hp (List.mem_takeWhile_imp hm) rfl

theorem dotted_split (cs : List Char) :
    (dotted cs).2.1 ++ (dotted cs).2.2 = cs ∧ '\n' ∉ (dotted cs).2.1 ∧ (dotted cs).1 ≠ .string := by
  have hpart := not_line_takeWhile (p := isIdentPart) (by decide)
  fun_induction dotted cs with
  | case1 dot c cs h _ _ _ hrec ih =>
    rw [hrec] at ih
    obtain ⟨rfl, hu⟩ := h
    have hc := ne_line_of_class (p := isUpper) (by decide) hu
    refine ⟨?_, ?_, ih.2.2⟩
    · simp [ih.1, List.takeWhile_append_dropWhile]
    · simp [hc, hpart, ih.2.1]
  | case2 dot c cs _ h =>
    obtain ⟨rfl, hi⟩ := h
    have hc := ne_line_of_class (p := isIdentStart) (by decide) hi
    simp [hc, hpart, List.takeWhile_append_dropWhile]
  | case3 | case4 => simp

/-- What is right about a lexeme that is cut off in front of `rest`. -/
structure Faithful (l : Lexeme) (rest : List Char) : Prop where
  token : ∀ k ∈ l.token?, Spells k.1 k.2 l.raw ∧ l.raw ≠ [] ∧ '\n' ∉ l.raw
  blank : l.token? = none → ∀ gap after, rest = gap ++ after → Gap after gap → Gap after (l.raw ++ gap)

theorem faithful_token {kind : TokenKind} {raw : List Char} (hk : kind ≠ .string) (hne : raw ≠ [])
    (hl : '\n' ∉ raw) (rest : List Char) : (Lexeme.token kind raw).Faithful rest := by
  refine ⟨fun k hm => ?_, nofun⟩
  cases hm
  exact ⟨by simp [Spells, hk, Lexeme.token], hne, hl⟩

theorem ofWord_ne_string (word : String) : TokenKind.ofWord word ≠ .string := by
  unfold TokenKind.ofWord
  split <;> simp

theorem ofSymbols_ne_string (run : String) : TokenKind.ofSymbols run ≠ .string := by
  unfold TokenKind.ofSymbols
  split <;> simp

theorem faithful_symbols {c : Char} (cs : List Char) (hc : '\n' ≠ c) :
    c :: cs = (symbols c cs).1.raw ++ (symbols c cs).2 ∧
      (symbols c cs).1.Faithful (symbols c cs).2 := by
  unfold symbols
  simp only
  split
  · rename_i hd
    simp only [Bool.and_eq_true, decide_eq_true_eq, List.all_eq_true, beq_iff_eq] at hd
    refine ⟨by simp [Lexeme.blank, List.takeWhile_append_dropWhile], nofun, fun _ gap after hr hg => ?_⟩
    simp only [Lexeme.blank]
    refine .line hd.1 hd.2 (fun x hx => ?_) (not_line_takeWhile (by simp) _) (fun x hx => ?_) hg
    · -- the run of symbols was taken as far as it goes
      cases hrest : cs.dropWhile isSymbol with
      | nil => simp [hrest] at hx
      | cons y ys =>
        have hy := List.head_dropWhile_not isSymbol (l := cs) (by simp [hrest])
        simp only [hrest, List.head_cons] at hy
        rw [hrest] at hx
        by_cases hl : y = '\n'
        · subst hl
          simp at hx
        · rw [List.takeWhile_cons_of_pos (by simpa using hl)] at hx
          cases hx
          exact hy
    · rw [← hr] at hx
      cases hrest : (cs.dropWhile isSymbol).dropWhile (· != '\n') with
      | nil => simp [hrest] at hx
      | cons y ys =>
        have hy := List.head_dropWhile_not (· != '\n') (l := cs.dropWhile isSymbol) (by simp [hrest])
        simp only [hrest, List.head_cons, bne_eq_false_iff_eq] at hy
        rw [hrest] at hx
        cases hx
        exact hy
  · refine ⟨by simp [Lexeme.token, List.takeWhile_append_dropWhile], ?_⟩
    refine faithful_token (ofSymbols_ne_string _) (by simp) ?_ _
    simp [hc, not_line_takeWhile (p := isSymbol) (by decide)]

theorem faithful_next {c : Char} {cs rest : List Char} {l : Lexeme}
    (h : next c cs = .ok (l, rest)) : c :: cs = l.raw ++ rest ∧ l.Faithful rest := by
  revert h
  fun_cases next c cs with
  | case1 hb =>
    intro h
    cases h
    exact ⟨rfl, by rintro _ ⟨⟩, fun _ _ _ _ hg => .blank hb hg⟩
  | case2 _ hc =>
    intro h
    -- a block comment goes as far as its nested comments do
    obtain ⟨more, hm, hcs, rfl⟩ := rests_commentFrom h
    obtain ⟨rfl, hhead⟩ := hc
    have hsplit : cs = '-' :: cs.tail := by
      cases cs with
      | nil => cases hhead
      | cons d cs => cases hhead; rfl
    refine ⟨by rw [hsplit, hcs]; simp [Lexeme.blank], by rintro _ ⟨⟩, fun _ gap after _ hg => ?_⟩
    cases hm with
    | one hm => exact .block hm hg
  | case3 hb hc hi word =>
    intro h
    cases h
    have hl := ne_line_of_class (p := isIdentStart) (by decide) hi
    refine ⟨by simp [word, Lexeme.token, List.takeWhile_append_dropWhile],
      faithful_token (ofWord_ne_string _) (by simp [word]) ?_ _⟩
    simp [word, hl, not_line_takeWhile (p := isIdentPart) (by decide)]
  | case4 hb hc hi hu =>
    intro h
    simp only [name, Except.ok.injEq, Prod.mk.injEq] at h
    obtain ⟨rfl, rfl⟩ := h
    have hl := ne_line_of_class (p := isUpper) (by decide) hu
    obtain ⟨hsplit, hline, hkind⟩ := dotted_split (cs.dropWhile isIdentPart)
    refine ⟨by simp [Lexeme.token, hsplit, List.takeWhile_append_dropWhile],
      faithful_token hkind (by simp) ?_ _⟩
    simp [hl, not_line_takeWhile (p := isIdentPart) (by decide), hline]
  | case5 hb hc hi hu hg =>
    intro h
    cases h
    have hl := ne_line_of_class (p := isDigit) (by decide) hg
    refine ⟨by simp [Lexeme.token, List.takeWhile_append_dropWhile],
      faithful_token (by simp) (by simp) ?_ _⟩
    simp [hl, not_line_takeWhile (p := isDigit) (by decide)]
  | case6 hb hc hi hu hg hq =>
    intro h
    subst hq
    -- a literal is spelled with quotes and escapes, so the span is not its text
    obtain ⟨hsplit, t, ht, hs⟩ := spells_stringFrom rfl .nil h
    refine ⟨hsplit, fun k hk => ?_, fun hnone => by simp [ht] at hnone⟩
    rw [ht] at hk
    cases hk
    have hs' := hs
    simp only [Spells, if_true] at hs'
    obtain ⟨body, hraw, hd⟩ := hs'
    refine ⟨hs, by simp [hraw], ?_⟩
    simp [hraw, hd.no_line]
  | case11 hb hc hi hu hg hq hl hr hm hs hy =>
    intro h
    simp only [Except.ok.injEq] at h
    have hfaithful := faithful_symbols cs (ne_line_of_class (p := isSymbol) (by decide) hy)
    rw [h] at hfaithful
    exact hfaithful
  | case12 => intro h; cases h
  | _ =>
    intro h
    cases h
    rename_i hc
    subst hc
    exact ⟨rfl, faithful_token (by simp) (by simp) (by simp) _⟩

end Lexeme

/-! ## All of them -/

namespace Token

variable {before : List Char} {ts : List Token} {rest : List Char}

theorem Laid.gap {l : Lexeme} (h : Laid (before ++ l.raw) ts rest) (hl : l.Faithful rest)
    (hnone : l.token? = none) : Laid before ts (l.raw ++ rest) := by
  cases h with
  | nil hg => exact .nil (hl.blank hnone _ [] (by simp) hg)
  | @cons _ gap span rest t ts hg hp hs hne hline h =>
    rw [← List.append_assoc]
    refine .cons (hl.blank hnone _ _ rfl hg) ?_ hs hne hline ?_
    · rw [hp, List.append_assoc]
    · simpa using h

theorem laid_place {cs : List Char} {ls : List Lexeme} (h : Lexeme.Cuts cs ls []) :
    ∀ before fresh, Laid before (Lexeme.place (Pos.start.after before) fresh ls) cs := by
  generalize hr : ([] : List Char) = rest at h
  induction h with
  | done =>
    intro before fresh
    subst hr
    exact .nil .nil
  | @step c cs cs' rest l ls hn hs ih =>
    intro before fresh
    obtain ⟨hsplit, hl⟩ := Lexeme.faithful_next hn
    have ih' := ih hr (before ++ l.raw)
    rw [Pos.after_append] at ih'
    rw [hsplit]
    unfold Lexeme.place
    cases ht : l.token? with
    | none => exact (ih' _).gap hl ht
    | some k =>
      obtain ⟨hs, hne, hline⟩ := hl.token k (by simp [ht])
      exact .cons .nil (by simp) hs hne hline (by simpa using ih' false)

theorem Laid.pos (h : Laid before ts rest) :
    ∀ t ∈ ts, ∃ more, t.pos = Pos.start.after (before ++ more) := by
  induction h with
  | nil => simp
  | @cons before gap span rest t ts _ hp _ _ _ _ ih =>
    intro u hu
    rcases List.mem_cons.mp hu with rfl | hu
    · exact ⟨gap, hp⟩
    · obtain ⟨more, hm⟩ := ih u hu
      exact ⟨gap ++ span ++ more, by simpa using hm⟩

theorem Laid.increasing (h : Laid before ts rest) : ts.Pairwise fun t u => t.pos.Before u.pos := by
  induction h with
  | nil => exact .nil
  | @cons before gap span rest t ts hg hp hs hne hline h ih =>
    refine .cons (fun u hu => ?_) ih
    obtain ⟨more, hm⟩ := h.pos u hu
    have hsplit : before ++ gap ++ span ++ more = (before ++ gap) ++ (span ++ more) := by simp
    rw [hp, hm, hsplit, Pos.after_append _ (before ++ gap)]
    exact Pos.before_after _ (by simp [hne])

end Token

namespace Lexeme

/-- The flag tells whether a token stands before on the line; none stands on a later one. -/
structure Fresh (pos : Pos) (fresh : Bool) (before : List Token) : Prop where
  flag : fresh = true ↔ ∀ u ∈ before, u.pos.line ≠ pos.line
  above : ∀ u ∈ before, u.pos.line ≤ pos.line

theorem startsLine_place {cs rest : List Char} {ls : List Lexeme} (h : Cuts cs ls rest) :
    ∀ (pos : Pos) (fresh : Bool) (before : List Token), Fresh pos fresh before →
      ∀ front t back, place pos fresh ls = front ++ t :: back →
        (t.startsLine = true ↔ ∀ u ∈ before ++ front, u.pos.line ≠ t.pos.line) := by
  induction h with
  | done =>
    intro pos fresh before _ front t back he
    simp [place] at he
  | @step c cs cs' rest l ls hn hs ih =>
    intro pos fresh before hf front t back he
    obtain ⟨-, hl⟩ := faithful_next hn
    unfold place at he
    cases ht : l.token? with
    | none =>
      simp only [ht] at he
      refine ih _ _ before ⟨?_, fun u hu => ?_⟩ front t back he
      · by_cases hm : '\n' ∈ l.raw
        · have hlt : pos.line < (pos.after l.raw).line := by
            have hle := pos.line_le_after l.raw
            have hne := mt (pos.line_after l.raw).mp (by simpa using hm)
            omega
          simp [hm]
          intro u hu
          have := hf.above u hu
          omega
        · have hline := (pos.line_after l.raw).mpr hm
          simp [hm, hline, hf.flag]
      · exact Int.le_trans (hf.above u hu) (pos.line_le_after l.raw)
    | some k =>
      simp only [ht] at he
      have hline := (pos.line_after l.raw).mpr (hl.token k (by simp [ht])).2.2
      cases front with
      | nil =>
        simp only [List.nil_append, List.cons.injEq] at he
        obtain ⟨rfl, _⟩ := he
        simpa using hf.flag
      | cons x front =>
        simp only [List.cons_append, List.cons.injEq] at he
        obtain ⟨rfl, he⟩ := he
        have hnext := ih (pos.after l.raw) false (before ++ [⟨k.1, k.2, pos, fresh⟩])
          ⟨by simp [hline], fun u hu => ?_⟩ front t back he
        · simpa using hnext
        · rw [hline]
          rcases List.mem_append.mp hu with hu | hu
          · exact hf.above u hu
          · simp [List.mem_singleton.mp hu]

end Lexeme

namespace Lexeme

theorem mem_place {t : Token} {ls : List Lexeme} {pos : Pos} {fresh : Bool}
    (h : t ∈ place pos fresh ls) : ∃ l ∈ ls, l.token? = some (t.kind, t.text) := by
  induction ls generalizing pos fresh with
  | nil => cases h
  | cons l ls ih =>
    unfold place at h
    cases hk : l.token? with
    | none =>
      simp only [hk] at h
      obtain ⟨l', hl', ht⟩ := ih h
      exact ⟨l', List.mem_cons_of_mem _ hl', ht⟩
    | some k =>
      simp only [hk, List.mem_cons] at h
      rcases h with rfl | h
      · exact ⟨l, List.mem_cons_self, hk⟩
      · obtain ⟨l', hl', ht⟩ := ih h
        exact ⟨l', List.mem_cons_of_mem _ hl', ht⟩

theorem Cuts.exists_next {cs rest : List Char} {ls : List Lexeme} (h : Cuts cs ls rest) :
    ∀ l ∈ ls, ∃ c cs rest, next c cs = .ok (l, rest) := by
  induction h with
  | done => nofun
  | step hn _ ih => exact List.forall_mem_cons.mpr ⟨⟨_, _, _, hn⟩, ih⟩

end Lexeme

namespace Lexed

variable {source text : String} {x : Lexed}

theorem cuts_of_ofText (h : ofText source text = .ok x) :
    ∃ ls, Lexeme.Cuts text.toList ls [] ∧ x.tokens = Lexeme.place .start true ls := by
  unfold ofText at h
  split at h
  · cases h
  · rename_i ls hscan
    cases h
    exact ⟨ls, Lexeme.cuts_of_scan hscan, by simp [Lexeme.tokens, Lexeme.tokensFrom_eq]⟩

theorem laid_ofText (h : ofText source text = .ok x) : Token.Laid [] x.tokens text.toList := by
  obtain ⟨ls, hc, ht⟩ := cuts_of_ofText h
  rw [ht]
  exact Token.laid_place hc [] true

theorem exists_next (h : ofText source text = .ok x) {t : Token} (ht : t ∈ x.tokens) :
    ∃ c cs l rest, Lexeme.next c cs = .ok (l, rest) ∧ l.token? = some (t.kind, t.text) := by
  obtain ⟨ls, hc, hx⟩ := cuts_of_ofText h
  rw [hx] at ht
  obtain ⟨l, hl, htoken⟩ := Lexeme.mem_place ht
  obtain ⟨c, cs, rest, hn⟩ := hc.exists_next l hl
  exact ⟨c, cs, l, rest, hn, htoken⟩

/-- Positions come one after the other, and a token starts a line if no other stands before it there. -/
theorem starts_ofText (h : ofText source text = .ok x) :
    (x.tokens.Pairwise fun t u => t.pos.Before u.pos) ∧
      ∀ front t back, x.tokens = front ++ t :: back →
        (t.startsLine = true ↔ ∀ u ∈ front, u.pos.line ≠ t.pos.line) := by
  refine ⟨(laid_ofText h).increasing, fun front t back he => ?_⟩
  obtain ⟨ls, hc, ht⟩ := cuts_of_ofText h
  rw [ht] at he
  exact Lexeme.startsLine_place hc .start true [] ⟨by simp, by simp⟩ front t back he

/-- **Nothing of a source is lost.** Its tokens stand in its characters at their positions, which come
one after the other, each token on one line, and a token starts a line if no other stands before it
there. The characters are those of the text that the source is the bytes of, if there is one. -/
theorem lossless {bs : List UInt8} (h : ofBytes source bs = .ok x) :
    Token.Laid [] x.tokens (Text.runes bs) ∧ (x.tokens.Pairwise fun t u => t.pos.Before u.pos) ∧
      (∀ front t back, x.tokens = front ++ t :: back →
        (t.startsLine = true ↔ ∀ u ∈ front, u.pos.line ≠ t.pos.line)) ∧
      ∀ text, bs = Text.bytes text → Text.runes bs = text.toList := by
  have hlaid := laid_ofText h
  rw [String.toList_ofList] at hlaid
  obtain ⟨hbefore, hstarts⟩ := starts_ofText h
  refine ⟨hlaid, hbefore, hstarts, ?_⟩
  rintro text rfl
  exact Text.runes_bytes text

/-- A comment in a comment that ends on the next line, a comment of dashes, and an escape. -/
theorem lossless_commented : ∃ x,
    let text := "a \x7b- x\n\x7b- -\x7d -\x7d B.c --- z\n  \"q\\n\""
    ofBytes "s" (Text.bytes text) = .ok x ∧
      x.tokens = [⟨.ident, "a", ⟨1, 1⟩, true⟩, ⟨.qvar, "B.c", ⟨2, 10⟩, true⟩,
        ⟨.string, "q\n", ⟨3, 3⟩, true⟩] ∧
      Token.Laid [] x.tokens text.toList ∧
      (x.tokens.Pairwise fun t u => t.pos.Before u.pos) ∧
      ∀ front t back, x.tokens = front ++ t :: back →
        (t.startsLine = true ↔ ∀ u ∈ front, u.pos.line ≠ t.pos.line) := by
  let text := "a \x7b- x\n\x7b- -\x7d -\x7d B.c --- z\n  \"q\\n\""
  have hread : (ofBytes "s" (Text.bytes text)).toOption.map (·.tokens) =
      some [⟨.ident, "a", ⟨1, 1⟩, true⟩, ⟨.qvar, "B.c", ⟨2, 10⟩, true⟩,
        ⟨.string, "q\n", ⟨3, 3⟩, true⟩] := by
    decide +kernel
  cases hx : ofBytes "s" (Text.bytes text) with
  | error e =>
    rw [hx] at hread
    cases hread
  | ok x =>
    rw [hx] at hread
    obtain ⟨hlaid, hbefore, hstarts, hchars⟩ := lossless hx
    exact ⟨x, hx, Option.some.inj hread, hchars text rfl ▸ hlaid, hbefore, hstarts⟩

/-- The byte FF in a literal becomes a character of three bytes; and the token that stands for the end
starts no line, though in an empty source nothing stands before it. -/
theorem lossless_replaced :
    (∃ x, ofBytes "s" [0x22, 0xFF, 0x22] = .ok x ∧
      x.tokens.map (fun t => (t.kind, Text.bytes t.text)) = [(.string, [0xEF, 0xBF, 0xBD])]) ∧
    ∃ x, ofBytes "s" [] = .ok x ∧ x.tokens = [] ∧ (Token.eof x.stop).startsLine = false := by
  constructor
  · have hread : (ofBytes "s" [0x22, 0xFF, 0x22]).toOption.map
        (·.tokens.map fun t => (t.kind, Text.bytes t.text)) = some [(.string, [0xEF, 0xBF, 0xBD])] := by
      decide +kernel
    cases hx : ofBytes "s" [0x22, 0xFF, 0x22] with
    | error e =>
      rw [hx] at hread
      cases hread
    | ok x =>
      rw [hx] at hread
      exact ⟨x, rfl, Option.some.inj hread⟩
  · have hscan : Lexeme.scan (String.ofList (Text.runes [])).toList = ([], none) := by decide +kernel
    refine ⟨⟨[], .start⟩, ?_, rfl, rfl⟩
    rw [ofBytes, ofText, hscan]
    rfl

end Lexed

end LazySession

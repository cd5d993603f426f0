import LazySession.Lang.Lexeme
import Mathlib.Data.List.TakeWhile

/-!
# Scanning a text piece by piece

`Lexeme.Cuts cs ls rest`: the scanner cuts the lexemes `ls` off `cs` and has `rest` left. The rest
is there while they are cut, so that cuts can be put together. A text that can be scanned alone is
cut in the same way in front of a line break or a closing parenthesis, unless it ends in a comment
that swallows the parenthesis.
-/

namespace LazySession

open Text

namespace Lexeme

inductive Cuts : List Char → List Lexeme → List Char → Prop
  | done {rest : List Char} : Cuts rest [] rest
  | step {c : Char} {cs cs' rest : List Char} {l : Lexeme} {ls : List Lexeme}
      (h : next c cs = .ok (l, cs')) (hs : Cuts cs' ls rest) : Cuts (c :: cs) (l :: ls) rest

theorem Cuts.append {cs mid rest : List Char} {ls ls' : List Lexeme} (h : Cuts cs ls mid)
    (h' : Cuts mid ls' rest) : Cuts cs (ls ++ ls') rest := by
  induction h with
  | done => exact h'
  | step hn _ ih => exact .step hn (ih h')

theorem scanFrom_cons {c : Char} {cs cs' : List Char} {l : Lexeme} (h : next c cs = .ok (l, cs'))
    (done : List Lexeme) : scanFrom done (c :: cs) = scanFrom (l :: done) cs' := by
  rw [scanFrom]
  split
  · rename_i hf
    rw [h] at hf
    cases hf
  · rename_i hf
    rw [h] at hf
    cases hf
    rfl

theorem Cuts.scanFrom {cs rest : List Char} {ls : List Lexeme} (h : Cuts cs ls rest) :
    ∀ done, scanFrom done cs = Lexeme.scanFrom (ls.reverse ++ done) rest := by
  induction h with
  | done => intro done; rfl
  | step hn _ ih =>
    intro done
    rw [scanFrom_cons hn, ih]
    simp

theorem Cuts.scan {cs : List Char} {ls : List Lexeme} (h : Cuts cs ls []) :
    scan cs = (ls, none) := by
  rw [Lexeme.scan, h.scanFrom, Lexeme.scanFrom]
  simp

theorem cuts_of_scanFrom {done ls : List Lexeme} {cs : List Char}
    (h : scanFrom done cs = (ls, none)) : ∃ ls', Cuts cs ls' [] ∧ ls = done.reverse ++ ls' := by
  fun_induction scanFrom done cs with
  | case1 =>
    cases h
    exact ⟨[], .done, by simp⟩
  | case2 => cases h
  | case3 done c cs l rest hn _ ih =>
    obtain ⟨ls', hs, rfl⟩ := ih h
    exact ⟨l :: ls', .step hn hs, by simp⟩

theorem cuts_of_scan {ls : List Lexeme} {cs : List Char} (h : scan cs = (ls, none)) :
    Cuts cs ls [] := by
  obtain ⟨ls', hs, rfl⟩ := cuts_of_scanFrom h
  exact hs

theorem Cuts.rest {cs mid : List Char} {ls ls' : List Lexeme} (h : Cuts cs ls mid)
    (h' : Cuts cs ls' []) : ∃ ls'', ls' = ls ++ ls'' ∧ Cuts mid ls'' [] := by
  induction h generalizing ls' with
  | done => exact ⟨ls', rfl, h'⟩
  | step hn _ ih =>
    cases h' with
    | step hn' hs' =>
      rw [hn] at hn'
      cases hn'
      obtain ⟨ls'', rfl, hs''⟩ := ih hs'
      exact ⟨ls'', rfl, hs''⟩

/-! ## Tokens -/

theorem commentFrom_token {depth : Nat} {raw cs rest : List Char} {l : Lexeme}
    (h : commentFrom depth raw cs = .ok (l, rest)) : l.token? = none := by
  fun_induction commentFrom depth raw cs with
  | case1 | case2 => cases h
  | case4 => cases h; rfl
  | case3 _ _ _ _ _ _ ih | case5 _ _ _ _ _ _ _ ih | case6 _ _ _ _ _ _ _ ih => exact ih h

theorem stringFrom_token {raw text cs rest : List Char} {l : Lexeme}
    (h : stringFrom raw text cs = .ok (l, rest)) : l.token?.map (·.1) = some .string := by
  fun_induction stringFrom raw text cs with
  | case3 => cases h; rfl
  | case5 _ _ _ _ _ _ _ _ ih | case7 _ _ _ _ _ _ _ ih => exact ih h
  | _ => cases h

/-- No token stands for the end of the input. -/
def Present (l : Lexeme) : Prop := ∀ k ∈ l.token?, k.1 ≠ .eof

theorem ofWord_present (word : String) : TokenKind.ofWord word ≠ .eof := by
  unfold TokenKind.ofWord
  split <;> simp

theorem ofSymbols_present (run : String) : TokenKind.ofSymbols run ≠ .eof := by
  unfold TokenKind.ofSymbols
  split <;> simp

theorem dotted_present (cs : List Char) : (dotted cs).1 ≠ .eof := by
  fun_induction dotted cs with
  | case1 dot c cs' _ _ _ _ h ih => rwa [h] at ih
  | _ => simp

theorem blank_present (raw : List Char) : (blank raw).Present := by
  intro k hk
  cases hk

theorem token_present {kind : TokenKind} (h : kind ≠ .eof) (raw : List Char) :
    (token kind raw).Present := by
  intro k hk
  cases hk
  exact h

theorem stringFrom_present {raw text cs rest : List Char} {l : Lexeme}
    (h : stringFrom raw text cs = .ok (l, rest)) : l.Present := by
  intro k hk he
  have hkind := stringFrom_token h
  rw [hk, Option.map_some, he] at hkind
  cases hkind

theorem commentFrom_present {depth : Nat} {raw cs rest : List Char} {l : Lexeme}
    (h : commentFrom depth raw cs = .ok (l, rest)) : l.Present := by
  intro k hk
  rw [commentFrom_token h] at hk
  cases hk

theorem next_present {c : Char} {cs rest : List Char} {l : Lexeme}
    (h : next c cs = .ok (l, rest)) : l.Present := by
  revert h
  fun_cases next c cs with
  | case1 => intro h; cases h; exact blank_present _
  | case2 => exact commentFrom_present
  | case3 => intro h; cases h; exact token_present (ofWord_present _) _
  | case4 => intro h; cases h; exact token_present (dotted_present _) _
  | case6 => exact stringFrom_present
  | case11 =>
    intro h
    simp only [Except.ok.injEq, symbols] at h
    split at h
    · cases h
      exact blank_present _
    · cases h
      exact token_present (ofSymbols_present _) _
  | case12 => intro h; cases h
  | _ => intro h; cases h; exact token_present (by simp) _

theorem Cuts.present {cs rest : List Char} {ls : List Lexeme} (h : Cuts cs ls rest) :
    ∀ l ∈ ls, l.Present := by
  induction h with
  | done => simp
  | step hn _ ih =>
    intro l hl
    rcases List.mem_cons.mp hl with rfl | hl
    · exact next_present hn
    · exact ih l hl

/-! ## Single lexemes -/

theorem next_blank {c : Char} (h : isBlank c) (cs : List Char) :
    next c cs = .ok (blank [c], cs) := by
  simp [next, h]

theorem next_lparen (cs : List Char) : next '(' cs = .ok (token .lparen ['('], cs) := rfl

theorem next_rparen (cs : List Char) : next ')' cs = .ok (token .rparen [')'], cs) := rfl

/-! ## In front of a delimiter -/

/-- Characters that end whatever stands before them on the line, comments apart. -/
def Delimits (d : Char) : Prop := d = ' ' ∨ d = '\n' ∨ d = ')'

namespace Delimits

variable {d : Char} (h : Delimits d)
include h

theorem not_identPart : isIdentPart d = false := by
  rcases h with rfl | rfl | rfl <;> decide

theorem not_symbol : isSymbol d = false := by
  rcases h with rfl | rfl | rfl <;> decide

theorem not_digit : isDigit d = false := by
  rcases h with rfl | rfl | rfl <;> decide

theorem not_identStart : isIdentStart d = false := by
  rcases h with rfl | rfl | rfl <;> decide

theorem not_upper : isUpper d = false := by
  rcases h with rfl | rfl | rfl <;> decide

theorem ne_dot : d ≠ '.' := by
  rcases h with rfl | rfl | rfl <;> decide

theorem ne_dash : d ≠ '-' := by
  rcases h with rfl | rfl | rfl <;> decide

end Delimits

theorem takeWhile_stop {p : Char → Bool} {d : Char} (hd : p d = false) (cs tail : List Char) :
    (cs ++ d :: tail).takeWhile p = cs.takeWhile p := by
  induction cs with
  | nil => simp [hd]
  | cons c cs ih => simp [List.takeWhile_cons, ih]

theorem dropWhile_stop {p : Char → Bool} {d : Char} (hd : p d = false) (cs tail : List Char) :
    (cs ++ d :: tail).dropWhile p = cs.dropWhile p ++ d :: tail := by
  induction cs with
  | nil => simp [hd]
  | cons c cs ih =>
    simp only [List.cons_append, List.dropWhile_cons, ih]
    split <;> rfl

theorem takeWhile_inside {p : Char → Bool} {cs : List Char} (h : cs.dropWhile p ≠ [])
    (tail : List Char) : (cs ++ tail).takeWhile p = cs.takeWhile p := by
  induction cs with
  | nil => exact absurd rfl h
  | cons c cs ih =>
    simp only [List.cons_append, List.takeWhile_cons, List.dropWhile_cons] at h ⊢
    split
    · rename_i hc
      rw [if_pos hc] at h
      rw [ih h]
    · rfl

theorem dropWhile_inside {p : Char → Bool} {cs : List Char} (h : cs.dropWhile p ≠ [])
    (tail : List Char) : (cs ++ tail).dropWhile p = cs.dropWhile p ++ tail := by
  induction cs with
  | nil => exact absurd rfl h
  | cons c cs ih =>
    simp only [List.cons_append, List.dropWhile_cons] at h ⊢
    split
    · rename_i hc
      rw [if_pos hc] at h
      exact ih h
    · rfl

/-- A comment up to the end of the line. -/
def isLineComment (l : Lexeme) : Bool :=
  l.token?.isNone && l.raw.head? == some '-'

section
variable {d : Char} (hd : Delimits d) (tail : List Char)
include hd

theorem dotted_stop (cs : List Char) :
    dotted (cs ++ d :: tail) = ((dotted cs).1, (dotted cs).2.1, (dotted cs).2.2 ++ d :: tail) := by
  fun_induction dotted cs with
  | case1 dot c cs' h kind more rest hrec ih =>
    rw [List.cons_append, List.cons_append, dotted, if_pos h, dropWhile_stop hd.not_identPart,
      takeWhile_stop hd.not_identPart, ih, hrec]
  | case2 dot c cs' hu h =>
    rw [List.cons_append, List.cons_append, dotted, if_neg hu, if_pos h,
      dropWhile_stop hd.not_identPart, takeWhile_stop hd.not_identPart]
  | case3 dot c cs' hu hi =>
    rw [List.cons_append, List.cons_append, dotted, if_neg hu, if_neg hi]
  | case4 cs hcs =>
    match cs with
    | [] => cases tail <;> simp [dotted, hd.ne_dot]
    | [x] => simp [dotted, hd.not_upper, hd.not_identStart]
    | x :: y :: zs => exact absurd rfl (hcs x y zs)

omit hd in
theorem stringFrom_stop {raw text cs rest : List Char} {l : Lexeme}
    (h : stringFrom raw text cs = .ok (l, rest)) :
    stringFrom raw text (cs ++ tail) = .ok (l, rest ++ tail) := by
  fun_induction stringFrom raw text cs with
  | case1 | case2 | case4 | case6 => cases h
  | case3 raw text cs hc =>
    cases h
    rw [List.cons_append, stringFrom.eq_def]
    simp
  | case5 raw text d cs e he hn hq ih =>
    rw [List.cons_append, stringFrom.eq_def]
    simp [he, ih h]
  | case7 raw text c cs hn hq hb ih =>
    rw [List.cons_append, stringFrom.eq_def]
    simp [hn, hq, hb, ih h]

omit hd in
theorem commentFrom_stop {depth : Nat} {raw cs rest : List Char} {l : Lexeme}
    (h : commentFrom depth raw cs = .ok (l, rest)) :
    commentFrom depth raw (cs ++ tail) = .ok (l, rest ++ tail) := by
  fun_induction commentFrom depth raw cs with
  | case1 | case2 => cases h
  | case3 depth raw c d cs hc ih =>
    obtain ⟨rfl, rfl⟩ := hc
    rw [List.cons_append, List.cons_append, commentFrom.eq_def]
    simp [ih h]
  | case4 raw c d cs hc hq =>
    cases h
    rw [List.cons_append, List.cons_append, commentFrom.eq_def]
    simp [hq]
  | case5 raw c d cs hc hq depth ih =>
    obtain ⟨rfl, rfl⟩ := hq
    rw [List.cons_append, List.cons_append, commentFrom.eq_def]
    simp [ih h]
  | case6 depth raw c d cs hc hq ih =>
    rw [List.cons_append, List.cons_append, commentFrom.eq_def]
    simp only [hc, hq, if_false]
    exact ih h

theorem symbols_stop {c : Char} {cs : List Char}
    (h : d = '\n' ∨ (symbols c cs).2 ≠ [] ∨ (symbols c cs).1.isLineComment = false) :
    symbols c (cs ++ d :: tail) = ((symbols c cs).1, (symbols c cs).2 ++ d :: tail) := by
  unfold symbols at h ⊢
  simp only [takeWhile_stop hd.not_symbol, dropWhile_stop hd.not_symbol] at h ⊢
  generalize cs.dropWhile isSymbol = rest at h ⊢
  by_cases hc : 2 ≤ (c :: cs.takeWhile isSymbol).length && (c :: cs.takeWhile isSymbol).all (· == '-')
  · rw [if_pos hc] at h
    rw [if_pos hc, if_pos hc]
    have hdash : c = '-' := by
      simp only [List.all_cons, Bool.and_eq_true, beq_iff_eq] at hc
      exact hc.2.1
    rcases h with rfl | h | h
    · rw [takeWhile_stop (by decide), dropWhile_stop (by decide)]
    · rw [takeWhile_inside h, dropWhile_inside h]
    · simp [isLineComment, blank, hdash] at h
  · rw [if_neg hc, if_neg hc]

theorem next_stop {c : Char} {cs rest : List Char} {l : Lexeme} (hn : next c cs = .ok (l, rest))
    (hl : d = '\n' ∨ rest ≠ [] ∨ l.isLineComment = false) :
    next c (cs ++ d :: tail) = .ok (l, rest ++ d :: tail) := by
  -- a comment starts with two dashes, and `d` is none
  have hhead : (cs ++ d :: tail).head? = some '-' ↔ cs.head? = some '-' := by
    cases cs <;> simp [hd.ne_dash]
  unfold next
  simp only [hhead, takeWhile_stop hd.not_identPart, dropWhile_stop hd.not_identPart,
    takeWhile_stop hd.not_digit, dropWhile_stop hd.not_digit]
  revert hn
  fun_cases next c cs with
  | case2 hb hc =>
    intro hn
    have htail : (cs ++ d :: tail).tail = cs.tail ++ d :: tail := by
      cases cs with
      | nil => simp at hc
      | cons => rfl
    rw [if_neg hb, if_pos hc, htail, commentFrom_stop _ hn]
  | case4 hb hc hi hu =>
    intro hn
    simp only [name, Except.ok.injEq, Prod.mk.injEq] at hn
    obtain ⟨rfl, rfl⟩ := hn
    rw [if_neg hb, if_neg hc, if_neg hi, if_pos hu, name, takeWhile_stop hd.not_identPart,
      dropWhile_stop hd.not_identPart, dotted_stop hd]
  | case6 hb hc hi hu hg hq =>
    intro hn
    rw [if_neg hb, if_neg hc, if_neg hi, if_neg hu, if_neg hg, if_pos hq, stringFrom_stop _ hn]
  | case11 hb hc hi hu hg hq hl' hr hm hs hy =>
    intro hn
    simp only [Except.ok.injEq] at hn
    have hl : d = '\n' ∨ (symbols c cs).2 ≠ [] ∨ (symbols c cs).1.isLineComment = false := by
      rw [hn]
      exact hl
    rw [if_neg hb, if_neg hc, if_neg hi, if_neg hu, if_neg hg, if_neg hq, if_neg hl', if_neg hr,
      if_neg hm, if_neg hs, if_pos hy, symbols_stop hd tail hl, hn]
  | case12 => intro hn; cases hn
  | case1 hb =>
    intro hn
    cases hn
    rw [if_pos hb]
  | case3 hb hc hi =>
    intro hn
    cases hn
    rw [if_neg hb, if_neg hc, if_pos hi]
  | case5 hb hc hi hu hg =>
    intro hn
    cases hn
    rw [if_neg hb, if_neg hc, if_neg hi, if_neg hu, if_pos hg]
  | _ =>
    intro hn
    cases hn
    rename_i h
    subst h
    rfl

theorem Cuts.stop {cs : List Char} {ls : List Lexeme} (h : Cuts cs ls [])
    (hl : d = '\n' ∨ ∀ l ∈ ls.getLast?, l.isLineComment = false) :
    Cuts (cs ++ d :: tail) ls (d :: tail) := by
  generalize hr : ([] : List Char) = rest at h
  induction h with
  | done =>
    subst hr
    exact .done
  | @step c cs cs' rest l ls hn hs ih =>
    subst hr
    cases hs with
    | done =>
      refine .step (next_stop hd tail hn ?_) .done
      rcases hl with rfl | hl
      · exact .inl rfl
      · exact .inr (.inr (hl l rfl))
    | step hn' hs' =>
      exact .step (next_stop hd tail hn (.inr (.inl (by simp)))) (ih hl rfl)

end

/-! ## In front of a swallowed parenthesis -/

theorem commentFrom_raw {depth : Nat} {raw cs rest : List Char} {l : Lexeme}
    (h : commentFrom depth raw cs = .ok (l, rest)) : ∃ more, l.raw = raw.reverse ++ more := by
  fun_induction commentFrom depth raw cs with
  | case1 | case2 => cases h
  | case4 raw c d cs hc hq =>
    cases h
    exact ⟨[c, d], by simp [blank]⟩
  | case3 depth raw c d cs hc ih | case5 raw c d cs hc hq depth ih =>
    obtain ⟨more, hm⟩ := ih h
    exact ⟨c :: d :: more, by simp [hm]⟩
  | case6 depth raw c d cs hc hq ih =>
    obtain ⟨more, hm⟩ := ih h
    exact ⟨c :: more, by simp [hm]⟩

theorem symbols_of_isLineComment {c : Char} {cs rest : List Char} {l : Lexeme}
    (hn : next c cs = .ok (l, rest)) (hl : l.isLineComment) :
    c = '-' ∧ symbols c cs = (l, rest) := by
  revert hn
  fun_cases next c cs with
  | case1 hb =>
    intro hn
    cases hn
    simp only [isLineComment, blank, List.head?_cons] at hl
    have hc : c = '-' := by simpa using hl
    subst hc
    cases hb
  | case2 hb hc =>
    intro hn
    obtain ⟨more, hm⟩ := commentFrom_raw hn
    simp [isLineComment, hm] at hl
  | case4 =>
    intro hn
    simp only [name, Except.ok.injEq, Prod.mk.injEq] at hn
    rw [← hn.1] at hl
    cases hl
  | case6 hb hc hi hu hg hq =>
    intro hn
    have hs : ∀ raw text cs, stringFrom raw text cs = .ok (l, rest) → l.token?.isSome := by
      intro raw text cs h
      fun_induction stringFrom raw text cs with
      | case1 | case2 | case4 | case6 => cases h
      | case3 => cases h; rfl
      | case5 _ _ _ _ _ _ _ _ ih | case7 _ _ _ _ _ _ _ ih => exact ih h
    have := hs _ _ _ hn
    simp only [isLineComment, Bool.and_eq_true, Option.isNone_iff_eq_none] at hl
    rw [hl.1] at this
    cases this
  | case11 =>
    intro hn
    simp only [Except.ok.injEq] at hn
    refine ⟨?_, hn⟩
    unfold symbols at hn
    simp only at hn
    split at hn
    · cases hn
      simpa [isLineComment, blank] using hl
    · cases hn
      cases hl
  | case12 => intro hn; cases hn
  | _ => intro hn; cases hn; cases hl

theorem next_swallow {c : Char} {cs : List Char} {l : Lexeme} (hn : next c cs = .ok (l, []))
    (hl : l.isLineComment) (tail : List Char) :
    ∃ l', l'.token? = none ∧ next c (cs ++ ')' :: '\n' :: tail) = .ok (l', '\n' :: tail) := by
  have hd : Delimits ')' := .inr (.inr rfl)
  obtain ⟨rfl, hs⟩ := symbols_of_isLineComment hn hl
  have hnext : ∀ cs, next '-' cs = .ok (symbols '-' cs) := by
    intro cs
    unfold next
    simp only [show isBlank '-' = false by decide, show isIdentStart '-' = false by decide,
      show isUpper '-' = false by decide, show isDigit '-' = false by decide,
      show isSymbol '-' = true by decide]
    simp
  rw [hnext]
  unfold symbols at hs ⊢
  simp only [takeWhile_stop hd.not_symbol, dropWhile_stop hd.not_symbol] at hs ⊢
  split at hs
  · rename_i hc
    simp only [Prod.mk.injEq] at hs
    have hsplit : cs.dropWhile isSymbol ++ ')' :: '\n' :: tail =
        (cs.dropWhile isSymbol ++ [')']) ++ '\n' :: tail := by simp
    have hall : (cs.dropWhile isSymbol ++ [')']).dropWhile (· != '\n') = [] := by
      rw [List.dropWhile_eq_nil_iff] at hs ⊢
      intro x hx
      rcases List.mem_append.mp hx with hx | hx
      · exact hs.2 x hx
      · rw [List.mem_singleton.mp hx]
        rfl
    rw [if_pos hc, hsplit, dropWhile_stop (by decide), hall]
    exact ⟨_, rfl, rfl⟩
  · simp only [Prod.mk.injEq] at hs
    rw [← hs.1] at hl
    cases hl

theorem Cuts.swallow {cs : List Char} {ls : List Lexeme} {l : Lexeme} (h : Cuts cs (ls ++ [l]) [])
    (hl : l.isLineComment) (tail : List Char) :
    ∃ l', l'.token? = none ∧ Cuts (cs ++ ')' :: '\n' :: tail) (ls ++ [l']) ('\n' :: tail) := by
  induction ls generalizing cs with
  | nil =>
    cases h with
    | step hn hs =>
      cases hs
      obtain ⟨l', hl', hn'⟩ := next_swallow hn hl tail
      exact ⟨l', hl', .step hn' .done⟩
  | cons k ls ih =>
    cases h with
    | @step c cs cs' _ _ _ hn hs =>
      obtain ⟨l', hl', hs'⟩ := ih hs
      have hne : cs' ≠ [] := by
        intro he
        subst he
        cases ls <;> cases hs
      have hn' := next_stop (.inr (.inr rfl)) ('\n' :: tail) hn (.inr (.inl hne))
      exact ⟨l', hl', .step hn' hs'⟩

/-! ## Words -/

/-- The characters of a variable or a keyword. -/
structure Word (cs : List Char) : Prop where
  start : ∀ c ∈ cs.head?, isIdentStart c ∧ isBlank c = false ∧ isSymbol c = false ∧ c ≠ '{'
  ne_nil : cs ≠ []
  part : ∀ c ∈ cs.tail, isIdentPart c

theorem Word.of_all {c : Char} {cs : List Char}
    (hc : isIdentStart c ∧ isBlank c = false ∧ isSymbol c = false ∧ c ≠ '{')
    (hcs : cs.all isIdentPart = true) : Word (c :: cs) := by
  refine ⟨fun d hd => ?_, List.cons_ne_nil c cs, List.all_eq_true.mp hcs⟩
  cases hd
  exact hc

theorem next_word {c : Char} {cs : List Char} (h : Word (c :: cs)) :
    next c cs = .ok (token (.ofWord (String.ofList (c :: cs))) (c :: cs), []) := by
  obtain ⟨hi, hb, -, hc⟩ := h.start c rfl
  have hp : ∀ x ∈ cs, isIdentPart x = true := h.part
  have htake : cs.takeWhile isIdentPart = cs := List.takeWhile_eq_self_iff.mpr hp
  have hdrop : cs.dropWhile isIdentPart = [] := List.dropWhile_eq_nil_iff.mpr hp
  unfold next
  simp only [hi, hb, hc, htake, hdrop, false_and]
  simp

theorem Word.cuts {cs : List Char} (h : Word cs) :
    Cuts cs [token (.ofWord (String.ofList cs)) cs] [] := by
  cases cs with
  | nil => exact absurd rfl h.ne_nil
  | cons c cs => exact .step (next_word h) .done

theorem Word.append {cs more : List Char} (h : Word cs) (hm : ∀ c ∈ more, isIdentPart c) :
    Word (cs ++ more) := by
  cases cs with
  | nil => exact absurd rfl h.ne_nil
  | cons c cs =>
    refine ⟨h.start, by simp, fun x hx => ?_⟩
    rcases List.mem_append.mp hx with hx | hx
    · exact h.part x hx
    · exact hm x hx

theorem next_bang {cs : List Char} (h : Word cs) (tail : List Char) :
    next '!' (cs ++ tail) = .ok (token .bang ['!'], cs ++ tail) := by
  cases cs with
  | nil => exact absurd rfl h.ne_nil
  | cons c cs =>
    obtain ⟨-, -, hs, -⟩ := h.start c rfl
    have hn : next '!' ((c :: cs) ++ tail) = .ok (symbols '!' ((c :: cs) ++ tail)) := rfl
    rw [hn]
    simp [symbols, hs]
    rfl

/-! ## What fails alone fails in front of a line -/

theorem commentFrom_unclosed {depth : Nat} {raw cs : List Char} (h : '}' ∉ cs) :
    ∃ f, commentFrom depth raw cs = .error f := by
  fun_induction commentFrom depth raw cs with
  | case1 | case2 => exact ⟨_, rfl⟩
  | case3 _ _ _ _ _ _ ih => exact ih fun hm => h (by simp [hm])
  | case4 _ _ _ _ _ hq | case5 _ _ _ _ _ hq => simp [hq.2] at h
  | case6 _ _ _ _ _ _ _ ih => exact ih fun hm => h (List.mem_cons_of_mem _ hm)

section
variable {tail : List Char}

theorem commentFrom_error (ht : '}' ∉ tail) {depth : Nat} {raw cs : List Char} {f : SyntaxFault}
    (h : commentFrom depth raw cs = .error f) :
    ∃ f', commentFrom depth raw (cs ++ '\n' :: tail) = .error f' := by
  fun_induction commentFrom depth raw cs with
  | case1 => exact commentFrom_unclosed (by simpa using ht)
  | case2 depth raw c =>
    rw [List.cons_append, List.nil_append, commentFrom.eq_def]
    simp only [show ¬ (c = '{' ∧ '\n' = '-') by simp, show ¬ (c = '-' ∧ '\n' = '}') by simp, if_false]
    exact commentFrom_unclosed (by simpa using ht)
  | case3 depth raw c d cs hc ih =>
    obtain ⟨rfl, rfl⟩ := hc
    rw [List.cons_append, List.cons_append, commentFrom.eq_def]
    simpa using ih h
  | case4 => cases h
  | case5 raw c d cs hc hq depth ih =>
    obtain ⟨rfl, rfl⟩ := hq
    rw [List.cons_append, List.cons_append, commentFrom.eq_def]
    simpa using ih h
  | case6 depth raw c d cs hc hq ih =>
    rw [List.cons_append, List.cons_append, commentFrom.eq_def]
    simp only [hc, hq, if_false]
    exact ih h

theorem stringFrom_error {raw text cs : List Char} {f : SyntaxFault}
    (h : stringFrom raw text cs = .error f) :
    ∃ f', stringFrom raw text (cs ++ '\n' :: tail) = .error f' := by
  fun_induction stringFrom raw text cs with
  | case1 =>
    rw [List.nil_append, stringFrom.eq_def]
    simp
  | case2 raw text cs =>
    rw [List.cons_append, stringFrom.eq_def]
    simp
  | case3 => cases h
  | case4 =>
    rw [List.cons_append, stringFrom.eq_def]
    simp [unescape?]
  | case5 raw text d cs e he hn hq ih =>
    rw [List.cons_append, stringFrom.eq_def]
    simpa [he] using ih h
  | case6 raw text d cs he =>
    rw [List.cons_append, stringFrom.eq_def]
    simp [he]
  | case7 raw text c cs hn hq hb ih =>
    rw [List.cons_append, stringFrom.eq_def]
    simpa [hn, hq, hb] using ih h

theorem next_error (ht : '}' ∉ tail) {c : Char} {cs : List Char} {f : SyntaxFault}
    (h : next c cs = .error f) : ∃ f', next c (cs ++ '\n' :: tail) = .error f' := by
  have hhead : (cs ++ '\n' :: tail).head? = some '-' ↔ cs.head? = some '-' := by
    cases cs <;> simp
  unfold next
  simp only [hhead]
  revert h
  fun_cases next c cs with
  | case2 hb hc =>
    intro h
    have htail : (cs ++ '\n' :: tail).tail = cs.tail ++ '\n' :: tail := by
      cases cs with
      | nil => simp at hc
      | cons => rfl
    rw [if_neg hb, if_pos hc, htail]
    exact commentFrom_error ht h
  | case6 hb hc hi hu hg hq =>
    intro h
    rw [if_neg hb, if_neg hc, if_neg hi, if_neg hu, if_neg hg, if_pos hq]
    exact stringFrom_error h
  | case12 hb hc hi hu hg hq hl hr hm hs hy =>
    intro _
    rw [if_neg hb, if_neg hc, if_neg hi, if_neg hu, if_neg hg, if_neg hq, if_neg hl, if_neg hr,
      if_neg hm, if_neg hs, if_neg hy]
    exact ⟨_, rfl⟩
  | _ => intro h; cases h

theorem Cuts.alone (ht : '}' ∉ tail) (n : Nat) : ∀ {cs : List Char} {ls : List Lexeme},
    cs.length ≤ n → Cuts (cs ++ '\n' :: tail) ls [] → ∃ ls', Cuts cs ls' [] := by
  induction n with
  | zero =>
    intro cs ls hn h
    obtain rfl := List.eq_nil_of_length_eq_zero (Nat.le_zero.mp hn)
    exact ⟨[], .done⟩
  | succ n ih =>
    intro cs ls hn h
    cases cs with
    | nil => exact ⟨[], .done⟩
    | cons c cs =>
      rw [List.cons_append] at h
      cases h with
      | step hl hs =>
        cases hc : next c cs with
        | error f =>
          obtain ⟨f', hf⟩ := next_error ht hc
          rw [hl] at hf
          cases hf
        | ok p =>
          have hstop := next_stop (d := '\n') (.inr (.inl rfl)) tail hc (.inl rfl)
          rw [hl] at hstop
          cases hstop
          have hle := next_length_le hc
          rw [List.length_cons] at hn
          obtain ⟨ls', h'⟩ := ih (by omega) hs
          exact ⟨_, .step hc h'⟩

end

end Lexeme

end LazySession

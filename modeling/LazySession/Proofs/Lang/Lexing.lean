import LazySession.Proofs.Lang.Printing
import LazySession.Proofs.Lang.Tidy
import Mathlib.Tactic.IntervalCases

/-!
# Printed words are read as the tokens that they are

A row of words that are tokens each is cut into these tokens: `Token.Word.cuts_line`. Lines of words
come back as items, one for each line: `Lexed.ofText_lines`. The words of a writable tree are tokens:
`Expr.lexes_words`, `Decl.lexes_words`.
-/

namespace LazySession

open Text Lexeme

/-! ## Letters -/

namespace Text.CharRange

/-- The code points that a range holds. -/
def holds (r : CharRange) (n : Nat) : Bool := r.lo ≤ n && n ≤ r.hi && (n - r.lo) % r.step == 0

/-- No code point is in both ranges. -/
def apart (r s : CharRange) : Bool :=
  r.hi < s.lo || s.hi < r.lo ||
    (List.range (r.hi + 1 - r.lo)).all fun k => !(r.holds (r.lo + k) && s.holds (r.lo + k))

theorem not_contains_of_apart {r s : CharRange} {c : Char} (h : r.apart s = true)
    (hc : r.contains c = true) : s.contains c = false := by
  have hr : r.holds c.toNat = true := hc
  by_contra hs
  have hs : s.holds c.toNat = true := by
    rw [Bool.not_eq_false] at hs
    exact hs
  have hbounds := hr
  have hbounds' := hs
  simp only [holds, Bool.and_eq_true, decide_eq_true_eq] at hbounds hbounds'
  unfold apart at h
  simp only [Bool.or_eq_true, decide_eq_true_eq, List.all_eq_true, List.mem_range] at h
  rcases h with (h | h) | h
  · omega
  · omega
  · have hlast := h (c.toNat - r.lo) (by omega)
    rw [Nat.add_sub_cancel' hbounds.1.1, hr, hs] at hlast
    cases hlast

end Text.CharRange

theorem Text.apart_upper_lower : upperRanges.all (fun r => lowerRanges.all r.apart) = true := by
  decide +kernel

theorem Text.not_lower_of_upper {c : Char} (h : isUpper c = true) : isLower c = false := by
  unfold isUpper at h
  unfold isLower
  split at h
  · rename_i hascii
    rw [if_pos hascii]
    simp only [Bool.and_eq_true, decide_eq_true_eq, Char.le_def, UInt32.le_iff_toNat_le] at h
    simp only [Bool.and_eq_false_iff, decide_eq_false_iff_not, Char.le_def, UInt32.le_iff_toNat_le]
    left
    have : 'Z'.val.toNat = 90 := rfl
    have : 'a'.val.toNat = 97 := rfl
    omega
  · rename_i hascii
    rw [if_neg hascii]
    obtain ⟨r, hr, hc⟩ := List.any_eq_true.mp h
    refine List.any_eq_false.mpr fun s hs => ?_
    have hapart := List.all_eq_true.mp (List.all_eq_true.mp apart_upper_lower r hr) s hs
    simp [CharRange.not_contains_of_apart hapart hc]

theorem not_upper_of_identStart {c : Char} (h : isIdentStart c = true) : isUpper c = false := by
  by_contra hu
  rw [Bool.not_eq_false] at hu
  unfold isIdentStart at h
  rw [not_lower_of_upper hu, Bool.or_false, beq_iff_eq] at h
  subst h
  cases hu

namespace Lexeme

/-! ## Names -/

theorem symbols_token (c : Char) (cs : List Char) :
    (symbols c cs).1.token?.map (·.1) ≠ some .ident ∧
      (symbols c cs).1.token?.map (·.1) ≠ some .conid := by
  unfold symbols
  simp only
  split
  · simp [blank]
  · simp only [token, Option.map_some, TokenKind.ofSymbols]
    split <;> simp

/-- Names come from words and from dotted names only. -/
theorem next_name {c : Char} {cs rest : List Char} {l : Lexeme} (h : next c cs = .ok (l, rest))
    (hl : l.token?.map (·.1) = some .ident ∨ l.token?.map (·.1) = some .conid) :
    isIdentStart c = true ∧ rest = cs.dropWhile isIdentPart ∧ l.token?.map (·.1) ≠ some .conid ∨
      isBlank c = false ∧ isIdentStart c = false ∧ isUpper c = true ∧ name c cs = (l, rest) := by
  revert h
  fun_cases next c cs with
  | case1 => rintro ⟨⟩; simp [blank] at hl
  | case2 =>
    intro h
    simp [commentFrom_token h] at hl
  | case3 _ _ hi =>
    rintro ⟨⟩
    refine .inl ⟨hi, rfl, ?_⟩
    simp only [token, Option.map_some, TokenKind.ofWord]
    split <;> simp
  | case4 hb _ hi hu =>
    intro h
    exact .inr ⟨by simpa using hb, by simpa using hi, hu, Except.ok.inj h⟩
  | case6 =>
    intro h
    simp [stringFrom_token h] at hl
  | case11 =>
    intro h
    have hs := symbols_token c cs
    rw [Except.ok.inj h] at hs
    exact (hl.elim hs.1 hs.2).elim
  | case12 => rintro ⟨⟩
  | _ => rintro ⟨⟩; simp [token] at hl

end Lexeme

/-! ## Tokens that stand alone -/

theorem Token.Word.lexes_of_next {c : Char} {cs : List Char} {w : Token.Word}
    (hraw : w.raw = c :: cs) (h : next c cs = .ok (w.lexeme, [])) : w.Lexes := by
  have hcuts : Cuts w.raw [w.lexeme] [] := by
    rw [hraw]
    exact .step h .done
  exact hcuts.scan

theorem Token.Word.Lexes.next {w : Token.Word} (h : w.Lexes) :
    ∃ c cs, w.raw = c :: cs ∧ Lexeme.next c cs = .ok (w.lexeme, []) := by
  have hcuts := cuts_of_scan h
  generalize hraw : w.raw = cs at hcuts
  cases hcuts with
  | step hn hs =>
    cases hs
    exact ⟨_, _, rfl, hn⟩

open Token.Word (Lexes lexes_of_next inParens)

theorem IsIdent.chars {x : String} (h : IsIdent x) :
    ∃ c cs, x.toList = c :: cs ∧ isIdentStart c = true ∧ ∀ d ∈ cs, isIdentPart d = true := by
  obtain ⟨c, cs, hraw, hn⟩ := h.next
  rcases next_name hn (.inl rfl) with ⟨hi, hrest, -⟩ | ⟨-, -, -, hname⟩
  · exact ⟨c, cs, hraw, hi, List.dropWhile_eq_nil_iff.mp hrest.symm⟩
  · have hkind := congrArg (·.1.token?) hname
    simp only [name, token, Token.Word.lexeme, Option.some.injEq, Prod.mk.injEq] at hkind
    exact absurd hkind.1 (dotted_kind _)

/-- Behind a dotted name a variable can stand. -/
theorem Lexeme.dotted_qualified {d : Char} {ds : List Char} (hd : isIdentStart d = true)
    (hds : ∀ e ∈ ds, isIdentPart e = true) (cs : List Char) : ∀ {more : List Char},
    dotted cs = (.conid, more, []) →
      dotted (cs ++ '.' :: d :: ds) = (.qvar, more ++ '.' :: d :: ds, []) := by
  have hdot : isIdentPart '.' = false := by decide
  fun_induction dotted cs with
  | case1 dot c cs' h kind more rest hrec ih =>
    rintro more' ⟨⟩
    rw [List.cons_append, List.cons_append, dotted, if_pos h, dropWhile_stop hdot,
      takeWhile_stop hdot, ih hrec]
    simp
  | case2 => rintro more' ⟨⟩
  | case3 => rintro more' ⟨⟩
  | case4 cs hcs =>
    rintro more' ⟨⟩
    rw [List.nil_append, dotted]
    simp [not_upper_of_identStart hd, hd, List.takeWhile_eq_self_iff.mpr hds,
      List.dropWhile_eq_nil_iff.mpr hds]

theorem lexes_qualified {mod x : String} (hm : IsConid mod) (hx : IsIdent x) :
    Lexes (.qvar, mod ++ "." ++ x) := by
  obtain ⟨c, cs, hraw, hn⟩ := hm.next
  obtain ⟨d, ds, hx', hd, hds⟩ := hx.chars
  have hraw' : mod.toList = c :: cs := hraw
  have hdot : isIdentPart '.' = false := by decide
  rcases next_name hn (.inr rfl) with ⟨-, -, hne⟩ | ⟨hb, hi, hu, hname⟩
  · exact absurd rfl hne
  · obtain ⟨more, hdotted, hmore⟩ : ∃ more,
        dotted (cs.dropWhile isIdentPart) = (.conid, more, []) ∧
          cs.takeWhile isIdentPart ++ more = cs := by
      rw [Token.Word.lexeme, hraw] at hname
      simp only [name, token, Prod.mk.injEq, Lexeme.mk.injEq, List.cons.injEq, Option.some.injEq,
        true_and] at hname
      exact ⟨_, Prod.ext hname.1.2.1 (Prod.ext rfl hname.2), hname.1.1⟩
    have hall : (mod ++ "." ++ x).toList = c :: (cs ++ '.' :: d :: ds) := by
      simp [hraw', hx']
    refine lexes_of_next hall ?_
    have hbrace : c ≠ '{' := by
      rintro rfl
      cases hu
    unfold Lexeme.next
    rw [if_neg (by simp [hb]), if_neg (by simp [hbrace]), if_neg (by simp [hi]), if_pos hu, name,
      dropWhile_stop hdot, takeWhile_stop hdot, dotted_qualified hd hds _ hdotted]
    simp only [token]
    rw [← List.append_assoc, hmore, ← hall, String.ofList_toList]
    rfl

theorem splitQualified_eq {mod x : String} (hx : IsIdent x) :
    Grammar.splitQualified (mod ++ "." ++ x) = (mod, x) := by
  obtain ⟨d, ds, hx', hd, hds⟩ := hx.chars
  have hall : ∀ c ∈ x.toList.reverse, (c != '.') = true := by
    intro c hc
    rw [hx', List.mem_reverse, List.mem_cons] at hc
    rw [bne_iff_ne]
    rintro rfl
    rcases hc with rfl | hc
    · cases hd
    · cases hds _ hc
  have hrev : (mod ++ "." ++ x).toList.reverse = x.toList.reverse ++ '.' :: mod.toList.reverse := by
    simp
  unfold Grammar.splitQualified
  simp only [hrev]
  rw [List.dropWhile_append_of_pos hall, List.takeWhile_append_of_pos hall]
  simp

/-- A word of the language is a token. -/
theorem Token.Word.Lexes.keyword {w : Token.Word} (h : w ∈ [(.kwModule, "module"), (.kwWhere, "where"),
    (.kwImport, "import"), (.kwLet, "let"), (.kwIn, "in"), (.kwIf, "if"), (.kwThen, "then"),
    (.kwElse, "else"), (.conid, "True"), (.conid, "False"), (.lparen, "("), (.rparen, ")"),
    (.comma, ","), (.semi, ";"), (.arrow, "->"), (.equals, "="), (.doubleColon, "::"), (.bang, "!"),
    (.backslash, "\\")]) : w.Lexes := by
  unfold Lexes
  revert w
  decide +kernel

theorem lexes_operator (op : Operator) : Lexes (.op, op.text) := by
  unfold Lexes
  cases op <;> decide +kernel

/-! ## Numbers -/

theorem Text.mem_digits {c : Char} (h : c.isDigit = true) : c ∈ "0123456789".toList := by
  have hbounds : 48 ≤ c.toNat ∧ c.toNat ≤ 57 := by
    simpa [Char.isDigit, UInt32.le_iff_toNat_le] using h
  rw [← Char.ofNat_toNat c]
  generalize c.toNat = n at hbounds ⊢
  obtain ⟨hlo, hhi⟩ := hbounds
  interval_cases n <;> decide

theorem Text.digitsFrom_eq (cs : List Char) (h : ∀ c ∈ cs, c.isDigit = true) (n : Nat) :
    digitsFrom n cs = some (Nat.ofDigitChars 10 cs n) := by
  induction cs generalizing n with
  | nil => rfl
  | cons c cs ih =>
    have hdigit : digit? c = some (c.toNat - 48) := by
      have hc := h c List.mem_cons_self
      unfold digit?
      rw [if_pos]
      simpa [Char.isDigit, Char.le_def] using hc
    rw [digitsFrom, hdigit]
    simp only
    rw [ih fun d hd => h d (List.mem_cons_of_mem _ hd)]
    rfl

theorem toList_ofInt64 {v : Int64} (h : 0 ≤ v.toInt) :
    (Text.ofInt64 v).toList = Nat.toDigits 10 v.toInt.toNat := by
  obtain ⟨n, hn⟩ := Int.eq_ofNat_of_zero_le h
  rw [Text.ofInt64, hn, Int.toNat_natCast]
  rw [Int.toString_eq_repr]
  change (Nat.repr n).toList = _
  rw [Nat.repr_eq_ofList_toDigits, String.toList_ofList]

theorem unsigned?_ofInt64 {v : Int64} (h : 0 ≤ v.toInt) :
    Text.unsigned? (Text.ofInt64 v).toList = some v := by
  have hdigits : ∀ c ∈ Nat.toDigits 10 v.toInt.toNat, c.isDigit = true :=
    fun c hc => Nat.isDigit_of_mem_toDigits (by decide) (by decide) hc
  have hlt : v.toInt.toNat < Text.int64Bound := by
    have := v.toInt_lt
    simp only [Text.int64Bound]
    omega
  have hv : Int64.ofNat v.toInt.toNat = v := by
    rw [← Int64.ofInt_eq_ofNat, Int.toNat_of_nonneg h, Int64.ofInt_toInt]
  rw [toList_ofInt64 h]
  unfold Text.unsigned? Text.nat?
  rw [if_neg (by simp), Text.digitsFrom_eq _ hdigits, Nat.ofDigitChars_ten_toDigits]
  simp only
  rw [if_pos hlt, hv]

theorem lexes_int {v : Int64} (h : 0 ≤ v.toInt) : Lexes (.int, Text.ofInt64 v) := by
  have hlist := toList_ofInt64 h
  have hdigits : ∀ c ∈ Nat.toDigits 10 v.toInt.toNat, c ∈ "0123456789".toList :=
    fun c hc => Text.mem_digits (Nat.isDigit_of_mem_toDigits (by decide) (by decide) hc)
  cases hds : Nat.toDigits 10 v.toInt.toNat with
  | nil => exact absurd hds (by simp)
  | cons c cs =>
    rw [hds] at hlist hdigits
    have hclass : ∀ d ∈ "0123456789".toList, isBlank d = false ∧ d ≠ '{' ∧ isIdentStart d = false ∧
        isUpper d = false ∧ isDigit d = true := by
      -- one digit after the other, and not one character after the other
      have hdecide : ("0123456789".toList.all fun d => decide (isBlank d = false ∧ d ≠ '{' ∧
          isIdentStart d = false ∧ isUpper d = false ∧ isDigit d = true)) = true := by decide
      intro d hd
      exact of_decide_eq_true (List.all_eq_true.mp hdecide d hd)
    have hall : ∀ d ∈ cs, isDigit d = true :=
      fun d hd => (hclass d (hdigits d (List.mem_cons_of_mem _ hd))).2.2.2.2
    obtain ⟨hb, hbrace, hi, hu, hd⟩ := hclass c (hdigits c List.mem_cons_self)
    refine lexes_of_next hlist ?_
    unfold Lexeme.next
    rw [if_neg (by simp [hb]), if_neg (by simp [hbrace]), if_neg (by simp [hi]), if_neg (by simp [hu]),
      if_pos hd, List.takeWhile_eq_self_iff.mpr hall, List.dropWhile_eq_nil_iff.mpr hall]
    simp only [token, Token.Word.lexeme]
    rw [← hlist, String.ofList_toList]
    rfl

/-! ## Strings -/

theorem escape_cases (c : Char) :
    (∃ d, unescape? d = some c ∧ Lexeme.escape c = ['\\', d]) ∨
      c ≠ '\n' ∧ c ≠ '\\' ∧ c ≠ '"' ∧ Lexeme.escape c = [c] := by
  unfold Lexeme.escape
  split
  · rename_i hc
    exact .inl ⟨'n', by rw [hc]; rfl, rfl⟩
  split
  · rename_i hc
    exact .inl ⟨'t', by rw [hc]; rfl, rfl⟩
  split
  · rename_i hc
    exact .inl ⟨'\\', by rw [hc]; rfl, rfl⟩
  split
  · rename_i hc
    exact .inl ⟨'"', by rw [hc]; rfl, rfl⟩
  · rename_i hn _ hb hq
    exact .inr ⟨hn, hb, hq, rfl⟩

theorem stringFrom_escape (cs rest : List Char) : ∀ raw text : List Char,
    stringFrom raw text (cs.flatMap Lexeme.escape ++ '"' :: rest) =
      .ok (⟨raw.reverse ++ (cs.flatMap Lexeme.escape ++ ['"']),
        some (.string, String.ofList (text.reverse ++ cs))⟩, rest) := by
  induction cs with
  | nil =>
    intro raw text
    rw [List.flatMap_nil, List.nil_append, stringFrom.eq_def]
    simp
  | cons c cs ih =>
    intro raw text
    rw [List.flatMap_cons, List.append_assoc]
    have hescaped : ∀ {d : Char}, unescape? d = some c →
        stringFrom raw text ('\\' :: d :: (cs.flatMap Lexeme.escape ++ '"' :: rest)) =
          .ok (⟨raw.reverse ++ (('\\' :: d :: cs.flatMap Lexeme.escape) ++ ['"']),
            some (.string, String.ofList (text.reverse ++ c :: cs))⟩, rest) := by
      intro d hd
      rw [stringFrom.eq_def]
      simp [hd, ih]
    rcases escape_cases c with ⟨d, hd, he⟩ | ⟨hn, hb, hq, he⟩
    · rw [he]
      exact hescaped hd
    · rw [he, List.singleton_append, stringFrom.eq_def]
      simp [hn, hb, hq, ih]

theorem lexes_string (text : String) : Lexes (.string, text) := by
  have hraw : Token.Word.raw (.string, text) = '"' :: (text.toList.flatMap Lexeme.escape ++ ['"']) :=
    rfl
  refine lexes_of_next hraw ?_
  have hn : ∀ cs, Lexeme.next '"' cs = stringFrom ['"'] [] cs := fun _ => rfl
  rw [hn, stringFrom_escape]
  simp [Token.Word.lexeme, Token.Word.raw]

/-! ## The words of trees -/

/-- All words are tokens. -/
abbrev LexAll (ws : List Token.Word) : Prop := ∀ w ∈ ws, w.Lexes

theorem lexAll_cons {w : Token.Word} {ws : List Token.Word} (hw : w.Lexes) (h : LexAll ws) :
    LexAll (w :: ws) :=
  List.forall_mem_cons.mpr ⟨hw, h⟩

theorem lexAll_append {ws ws' : List Token.Word} (h : LexAll ws) (h' : LexAll ws') :
    LexAll (ws ++ ws') :=
  List.forall_mem_append.mpr ⟨h, h'⟩

theorem lexAll_nil : LexAll [] := nofun

theorem lexAll_one {w : Token.Word} (h : w.Lexes) : LexAll [w] := lexAll_cons h lexAll_nil

theorem lexAll_inParens {ws : List Token.Word} (h : LexAll ws) : LexAll (inParens ws) :=
  lexAll_cons (.keyword (by decide)) (lexAll_append h (lexAll_one (.keyword (by decide))))

theorem lexAll_between {ws ws' : List Token.Word} (w : Token.Word) (hw : w.Lexes) (h : LexAll ws)
    (h' : LexAll ws') : LexAll (ws ++ w :: ws') :=
  lexAll_append h (lexAll_cons hw h')

namespace TypeExpr

mutual

theorem lexes_words : ∀ t : TypeExpr, t.Writable → LexAll t.words
  | con _ _, h | var _ _, h => lexAll_one h
  | unit _, _ => lexAll_inParens lexAll_nil
  | app head args, ⟨hh, _, ha⟩ =>
    lexAll_append (lexAll_inParens (lexes_words head hh)) (lexes_wordsAll args ha)
  | arrow dom cod, ⟨hd, hc⟩ =>
    lexAll_between _ (.keyword (by decide)) (lexAll_inParens (lexes_words dom hd))
      (lexAll_inParens (lexes_words cod hc))

theorem lexes_wordsAll : ∀ ts : List TypeExpr, AllWritable ts → LexAll (wordsAll ts)
  | [], _ => lexAll_nil
  | t :: ts, ⟨ht, hts⟩ => lexAll_append (lexAll_inParens (lexes_words t ht)) (lexes_wordsAll ts hts)

end

end TypeExpr

theorem lexes_params {ps : List Param} (h : ∀ q ∈ ps, q.Writable) :
    LexAll (ps.flatMap Param.words) := by
  intro w hw
  obtain ⟨q, hq, hw⟩ := List.mem_flatMap.mp hw
  cases q with
  | unit => exact lexAll_inParens lexAll_nil w hw
  | named x => exact lexAll_one (h _ hq) w hw

theorem lexes_wordsOf {name : String} {params : List Param} {body : List Token.Word}
    (hn : IsIdent name) (hp : ∀ q ∈ params, q.Writable) (hb : LexAll body) :
    LexAll (BindingOf.wordsOf name params body) :=
  lexAll_cons hn (lexAll_between _ (.keyword (by decide)) (lexes_params hp)
    (lexAll_inParens hb))

namespace Expr

mutual

theorem lexes_words : ∀ e : Expr, e.Writable → LexAll e.words
  | var _ _, h => lexAll_one h
  | qualified _ _ _, ⟨hm, hx⟩ => lexAll_one (lexes_qualified hm hx)
  | int _ _, h => lexAll_one (lexes_int h)
  | str _ _, _ => lexAll_one (lexes_string _)
  | bool _ value, _ => by
    refine lexAll_one (.keyword ?_)
    cases value <;> decide
  | unit _, _ => lexAll_inParens lexAll_nil
  | app fn args, ⟨hf, _, ha⟩ =>
    lexAll_append (lexAll_inParens (lexes_words fn hf)) (lexes_wordsAll args ha)
  | binary _ op l r, ⟨hl, hr⟩ =>
    lexAll_between _ (lexes_operator op) (lexAll_inParens (lexes_words l hl))
      (lexAll_inParens (lexes_words r hr))
  | negate _ e, h => lexAll_cons (lexes_operator .sub) (lexAll_inParens (lexes_words e h))
  | operator _ op, _ => lexAll_inParens (lexAll_one (lexes_operator op))
  | lambda _ p ps body, ⟨hp, hb⟩ =>
    lexAll_cons (.keyword (by decide)) (lexAll_between _ (.keyword (by decide))
      (lexes_params hp) (lexAll_inParens (lexes_words body hb)))
  | letIn _ binds body, ⟨_, hs, hb⟩ =>
    lexAll_cons (.keyword (by decide)) (lexAll_between _ (.keyword (by decide))
      (lexes_wordsBinds binds hs) (lexAll_inParens (lexes_words body hb)))
  | cond _ test yes no, ⟨ht, hy, hn⟩ =>
    lexAll_cons (.keyword (by decide)) (lexAll_between _ (.keyword (by decide))
      (lexAll_inParens (lexes_words test ht)) (lexAll_between _ (.keyword (by decide))
        (lexAll_inParens (lexes_words yes hy)) (lexAll_inParens (lexes_words no hn))))

theorem lexes_wordsAll : ∀ es : List Expr, AllWritable es → LexAll (wordsAll es)
  | [], _ => lexAll_nil
  | e :: es, ⟨he, hes⟩ => lexAll_append (lexAll_inParens (lexes_words e he)) (lexes_wordsAll es hes)

theorem lexes_wordsBinds : ∀ bs : List (BindingOf Expr), BindsWritable bs → LexAll (wordsBinds bs)
  | [], _ => lexAll_nil
  | ⟨_, name, params, _, body⟩ :: bs, ⟨⟨hn, hp, _, hb⟩, hbs⟩ => by
    refine lexAll_append (lexes_wordsOf hn hp (lexes_words body hb))
      (lexAll_append ?_ (lexes_wordsBinds bs hbs))
    split
    · exact lexAll_nil
    · exact lexAll_one (.keyword (by decide))

end

end Expr

theorem Decl.lexes_wordsNames : ∀ {names : List String}, (∀ x ∈ names, IsIdent x) →
    LexAll (wordsNames names)
  | [], _ => lexAll_nil
  | [x], h => lexAll_one (h x List.mem_cons_self)
  | x :: y :: xs, h => by
    refine lexAll_cons (h x List.mem_cons_self) (lexAll_cons (.keyword (by decide)) ?_)
    exact lexes_wordsNames fun z hz => h z (List.mem_cons_of_mem _ hz)

theorem Decl.lexes_words {d : Decl} (h : d.Writable) : LexAll d.words := by
  match d with
  | .importing _ mod => exact lexAll_cons (.keyword (by decide)) (lexAll_one h)
  | .signature _ names type =>
    obtain ⟨-, hn, ht⟩ := h
    exact lexAll_between _ (.keyword (by decide)) (lexes_wordsNames hn)
      (lexAll_inParens (type.lexes_words ht))
  | .binding ⟨_, name, params, strict, body⟩ =>
    obtain ⟨hn, hp, -, hb⟩ := h
    refine lexAll_append ?_ (lexes_wordsOf hn hp (body.lexes_words hb))
    split
    · exact lexAll_one (.keyword (by decide))
    · exact lexAll_nil

/-! ## Lines -/

namespace Token.Word

/-- The lexemes of a line of words. -/
def lexemes : List Token.Word → List Lexeme
  | [] => []
  | [w] => [w.lexeme]
  | w :: ws => w.lexeme :: blank [' '] :: lexemes ws

theorem cuts_line : ∀ {ws : List Token.Word}, LexAll ws → Cuts (line ws) (lexemes ws) []
  | [], _ => .done
  | [w], h => cuts_of_scan (h w List.mem_cons_self)
  | w :: v :: ws, h => by
    have hw : Cuts w.raw [w.lexeme] [] := cuts_of_scan (h w List.mem_cons_self)
    have hstop := hw.stop (d := ' ') (.inl rfl) (line (v :: ws)) (.inr (by rintro l ⟨⟩; rfl))
    exact hstop.append (.step (next_blank (by decide) _)
      (cuts_line fun u hu => h u (List.mem_cons_of_mem _ hu)))

/-- The lexemes of lines of words. -/
def lexemeLines (rows : List (List Token.Word)) : List Lexeme :=
  rows.flatMap fun ws => lexemes ws ++ [blank ['\n']]

theorem cuts_lines {rows : List (List Token.Word)} (h : ∀ ws ∈ rows, LexAll ws) :
    Cuts (Decl.lines rows) (lexemeLines rows) [] := by
  induction rows with
  | nil => exact .done
  | cons ws rows ih =>
    have hrows := ih fun vs hvs => h vs (List.mem_cons_of_mem _ hvs)
    have hline := (cuts_line (h ws List.mem_cons_self)).stop (.inr (.inl rfl)) (Decl.lines rows)
      (.inl rfl)
    have hstep : Cuts ('\n' :: Decl.lines rows) ([blank ['\n']] ++ lexemeLines rows) [] :=
      .step (next_blank (by decide) _) hrows
    simpa [Decl.lines, lexemeLines] using hline.append hstep

end Token.Word

/-! ## Tokens in a line -/

/-- Tokens that stand for the words, none of them at the start of a line. -/
structure Inner (ws : List Token.Word) (ts : List Token) : Prop where
  words : ts.map Token.word = ws
  inside : ∀ t ∈ ts, t.startsLine = false

/-- Tokens that stand for the words, only the first perhaps at the start of a line. -/
structure Row (ws : List Token.Word) (ts : List Token) : Prop where
  words : ts.map Token.word = ws
  inside : ∀ t ∈ ts.tail, t.startsLine = false

open Token.Word (lexemes lexemeLines)

theorem place_inner (rest : List Lexeme) : ∀ (ws : List Token.Word) (pos : Pos), ∃ ts pos',
    place pos false (lexemes ws ++ rest) = ts ++ place pos' false rest ∧ Inner ws ts
  | [], pos => ⟨[], pos, rfl, rfl, nofun⟩
  | [w], pos => ⟨[⟨w.1, w.2, pos, false⟩], _, rfl, rfl, by simp⟩
  | w :: v :: ws, pos => by
    obtain ⟨ts, pos', hp, hw, hi⟩ := place_inner rest (v :: ws) ((pos.after w.raw).after [' '])
    refine ⟨⟨w.1, w.2, pos, false⟩ :: ts, pos', ?_, by simp [Token.word, hw], ?_⟩
    · rw [List.cons_append, ← hp]
      rfl
    · exact List.forall_mem_cons.mpr ⟨rfl, hi⟩

theorem place_line (rest : List Lexeme) (w : Token.Word) (ws : List Token.Word) (pos : Pos) :
    ∃ ts pos', place pos true (lexemes (w :: ws) ++ rest) =
      ⟨w.1, w.2, pos, true⟩ :: ts ++ place pos' false rest ∧ Inner ws ts := by
  cases ws with
  | nil => exact ⟨[], _, rfl, rfl, nofun⟩
  | cons v ws =>
    obtain ⟨ts, pos', hp, hi⟩ := place_inner rest (v :: ws) ((pos.after w.raw).after [' '])
    refine ⟨ts, pos', ?_, hi⟩
    rw [List.cons_append, ← hp]
    rfl

/-- The item stands for the words of a line. -/
structure Item.Line (ws : List Token.Word) (i : Item) : Prop extends i.Cut where
  line : Row ws i.toks

theorem place_lines {rows : List (List Token.Word)} (h : ∀ ws ∈ rows, ws ≠ []) (pos : Pos)
    (hpos : pos.col = 1) : ∃ items, place pos true (lexemeLines rows) = items.flatMap Item.toks ∧
      List.Forall₂ Item.Line rows items := by
  induction rows generalizing pos with
  | nil => exact ⟨[], rfl, .nil⟩
  | cons ws rows ih =>
    cases ws with
    | nil => exact absurd rfl (h [] List.mem_cons_self)
    | cons w ws =>
      obtain ⟨ts, pos', hp, hi⟩ := place_line (blank ['\n'] :: lexemeLines rows) w ws pos
      obtain ⟨items, hitems, hlines⟩ := ih (fun vs hvs => h vs (List.mem_cons_of_mem _ hvs))
        (pos'.after ['\n']) rfl
      refine ⟨⟨⟨w.1, w.2, pos, true⟩, ts⟩ :: items, ?_, .cons ?_ hlines⟩
      · have hnewline : place pos' false (blank ['\n'] :: lexemeLines rows) =
            place (pos'.after ['\n']) true (lexemeLines rows) := rfl
        rw [hnewline] at hp
        rw [List.flatMap_cons, ← hitems, Item.toks, ← hp]
        simp [lexemeLines]
      · refine ⟨⟨by simp [Item.startsItem, hpos], fun t ht => ?_⟩, ?_, hi.inside⟩
        · simp [Item.startsItem, hi.inside t ht]
        · simp [Item.toks, Token.word, hi.words]

theorem Lexed.ofText_place {cs : List Char} {ls : List Lexeme} (source : String) (h : Cuts cs ls []) :
    ∃ stop, Lexed.ofText source (String.ofList cs) = .ok ⟨place .start true ls, stop⟩ := by
  have htokens : Lexeme.tokens ls = place .start true ls := by
    simp [Lexeme.tokens, tokensFrom_eq]
  unfold ofText
  rw [String.toList_ofList, h.scan, ← htokens]
  exact ⟨_, rfl⟩

/-- Lines of words come back as items. -/
theorem Lexed.ofText_lines (source : String) {rows : List (List Token.Word)}
    (hne : ∀ ws ∈ rows, ws ≠ []) (h : ∀ ws ∈ rows, LexAll ws) : ∃ items stop,
      Lexed.ofText source (String.ofList (Decl.lines rows)) =
        .ok ⟨items.flatMap Item.toks, stop⟩ ∧ List.Forall₂ Item.Line rows items := by
  obtain ⟨stop, hlex⟩ := Lexed.ofText_place source (Token.Word.cuts_lines h)
  obtain ⟨items, hitems, hlines⟩ := place_lines hne .start rfl
  exact ⟨items, stop, hitems ▸ hlex, hlines⟩

end LazySession

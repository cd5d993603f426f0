import LazySession.Proofs.Lang.Faults

/-!
# Where texts and items end

A token is taken to end as many columns further right as its text is long. That is behind its last
character unless it is a string literal, where the quotes and the escapes are missing
(`Token.Written.stop_iff`). The end of a text and that of an item are the end of their last token, and
what is missing at an end is missed there: `Lexed.ending_ofText`.
-/

namespace LazySession

/-! ## Tokens -/

theorem Pos.after_eq_right (p : Pos) {cs : List Char} (h : '\n' ∉ cs) :
    p.after cs = p.right cs.length := by
  induction cs generalizing p with
  | nil => simp [after, right]
  | cons c cs ih =>
    obtain ⟨hc, hcs⟩ := not_or.mp (List.mem_cons.not.mp h)
    have hstep : p.after (c :: cs) = (p.step c).after cs := rfl
    rw [hstep, ih _ hcs, step, if_neg (Ne.symm hc)]
    simp only [right, List.length_cons, Int.natCast_succ, Pos.mk.injEq, true_and]
    omega

theorem Pos.right_right (p : Pos) (m n : Nat) : (p.right m).right n = p.right (m + n) := by
  simp [right, Int.add_assoc]

theorem Pos.right_inj {p : Pos} {m n : Nat} : p.right m = p.right n ↔ m = n := by
  simp only [right, Pos.mk.injEq, true_and]
  omega

theorem Denotes.length_le {cs ts : List Char} (h : Denotes cs ts) : ts.length ≤ cs.length := by
  induction h with
  | nil => exact Nat.le_refl 0
  | plain _ _ ih => exact Nat.succ_le_succ ih
  | escape _ _ ih => exact Nat.succ_le_succ (Nat.le_succ_of_le ih)

/-- A token is written with as many characters as its text has, and a string literal with two more at
least. -/
theorem Spells.length {kind : TokenKind} {text : String} {span : List Char} (h : Spells kind text span) :
    (kind ≠ .string → span.length = text.length) ∧
      (kind = .string → text.length + 2 ≤ span.length) := by
  unfold Spells at h
  by_cases hk : kind = .string
  · rw [if_pos hk] at h
    obtain ⟨body, rfl, hd⟩ := h
    have hle := hd.length_le
    rw [String.length_toList] at hle
    refine ⟨fun hne => absurd hk hne, fun _ => ?_⟩
    simp only [List.length_cons, List.length_append, List.length_nil]
    omega
  · rw [if_neg hk] at h
    refine ⟨fun _ => ?_, fun he => absurd he hk⟩
    rw [h, String.length_toList]

namespace Token

/-- The token is written as `span` in the text, behind the characters `before` and in front of the
tokens `back`. -/
structure Written (text : List Char) (t : Token) (back : List Token) (before span : List Char) :
    Prop where
  split : ∃ rest, text = before ++ (span ++ rest) ∧ Laid (before ++ span) back rest
  pos : t.pos = Pos.start.after before
  spells : Spells t.kind t.text span
  line : '\n' ∉ span

theorem Laid.written {t : Token} {front back : List Token} {seen rest : List Char}
    (h : Laid seen (front ++ t :: back) rest) :
    ∃ before span, t.Written (seen ++ rest) back before span := by
  induction front generalizing seen rest with
  | nil =>
    cases h with
    | @cons _ gap span rest _ _ _ hp hs _ hl h =>
      exact ⟨seen ++ gap, span, ⟨rest, by simp, h⟩, hp, hs, hl⟩
  | cons u front ih =>
    cases h with
    | cons _ _ _ _ _ h =>
      obtain ⟨before, span, hw⟩ := ih h
      exact ⟨before, span, by simpa using hw⟩

namespace Written

variable {text : List Char} {t : Token} {back : List Token} {before span : List Char}

theorem after_eq (h : t.Written text back before span) :
    Pos.start.after (before ++ span) = t.stop.right (span.length - t.text.length) := by
  have hle : t.text.length ≤ span.length := by
    obtain ⟨hother, hstring⟩ := h.spells.length
    by_cases hk : t.kind = .string
    · exact Nat.le_of_add_right_le (hstring hk)
    · exact (hother hk).ge
  rw [Pos.after_append, Pos.after_eq_right _ h.line, ← h.pos, stop, Pos.right_right,
    Nat.add_sub_cancel' hle]

theorem stop_iff (h : t.Written text back before span) :
    t.stop = Pos.start.after (before ++ span) ↔ t.kind ≠ .string := by
  obtain ⟨hother, hstring⟩ := h.spells.length
  rw [Pos.after_append, Pos.after_eq_right _ h.line, ← h.pos, stop, Pos.right_inj]
  refine ⟨fun he hk => ?_, fun hk => (hother hk).symm⟩
  have := hstring hk
  omega

end Written

/-- The last one of the tokens, or of those in front of an item. -/
def Last (toks : List Token) (t : Token) : Prop :=
  ∃ front back, toks = front ++ t :: back ∧ Item.Ends back

theorem last_of_getLast? {toks : List Token} {t : Token} (h : toks.getLast? = some t) :
    Last toks t := by
  obtain ⟨front, rfl⟩ := List.getLast?_eq_some_iff.mp h
  exact ⟨front, [], rfl, nofun⟩

theorem Last.of_suffix {toks more : List Token} {t : Token} (h : Last toks t) (hs : toks <:+ more) :
    Last more t := by
  obtain ⟨front, back, rfl, hb⟩ := h
  obtain ⟨before, rfl⟩ := hs
  exact ⟨before ++ front, back, by simp, hb⟩

end Token

/-! ## Items -/

namespace Item

variable {toks : List Token} {i : Item}

theorem getLast?_toks (i : Item) : i.toks.getLast? = some (i.rest.getLastD i.first) := by
  rw [toks, List.getLast?_cons, List.getLastD_eq_getLast?]

theorem mem_split_append (h : i ∈ split toks) :
    ∃ before back, toks = before ++ (i.toks ++ back) ∧ Ends back := by
  obtain ⟨is, js, hsplit⟩ := List.append_of_mem h
  have hstarts := starts_split toks
  rw [hsplit] at hstarts
  have hjs := (List.pairwise_cons.mp (List.pairwise_append.mp hstarts).2.1).1
  refine ⟨is.flatMap Item.toks, js.flatMap Item.toks, ?_, ?_⟩
  · conv_lhs => rw [← toks_split toks, hsplit]
    simp
  · cases js with
    | nil => exact nofun
    | cons j js =>
      intro t ht
      cases ht
      exact hjs j List.mem_cons_self

theorem stop_eq (h : i ∈ split toks) :
    ∃ t, i.toks.getLast? = some t ∧ t.Last toks ∧ i.stop = t.stop := by
  obtain ⟨before, back, htoks, hback⟩ := mem_split_append h
  obtain ⟨front, hi⟩ := List.getLast?_eq_some_iff.mp i.getLast?_toks
  refine ⟨_, i.getLast?_toks, ?_, rfl⟩
  exact ⟨before ++ front, back, by rw [htoks, hi]; simp, hback⟩

theorem pos_atEnd {issue : Issue} (htoks : ∀ t ∈ i.toks, t.kind ≠ .eof)
    (h : i.decl = .error issue) (he : issue.fault.AtEnd) : issue.pos = i.stop := by
  have hblames := Reader.blames_runAll (Grammar.blames_decl fun t _ => Set.mem_univ t.pos)
    (Reader.given_of_mem htoks i.stop)
  rw [← decl, h] at hblames
  exact Reader.at_end hblames he

end Item

/-! ## Texts -/

variable {source text : String} {x : Lexed} {es : List SyntaxError}

theorem Lexed.present_ofText (h : ofText source text = .ok x) : ∀ t ∈ x.tokens, t.kind ≠ .eof := by
  intro t ht
  obtain ⟨_, _, _, _, hn, htoken⟩ := exists_next h ht
  exact Lexeme.next_present hn _ htoken

theorem Lexed.stop_ofText (h : ofText source text = .ok x) :
    ∀ t ∈ x.tokens.getLast?, x.stop = t.stop := by
  unfold ofText at h
  split at h
  · cases h
  · cases h
    intro t ht
    simp only [Option.mem_def] at ht
    simp only [ht]

/-- The message is about the end of something, and gives the end of a last token. -/
def SyntaxError.Ended (toks : List Token) (e : SyntaxError) : Prop :=
  e.fault.AtEnd → ∃ t : Token, t.Last toks ∧ e.pos = t.stop

theorem SyntaxError.ended_of_ne {e : SyntaxError} (toks : List Token) (h : e.fault.found? = none) :
    e.Ended toks := by
  rintro ⟨t, ht, -⟩
  rw [h] at ht
  cases ht

open SyntaxError (Ended ended_of_ne)

theorem Decl.ended_ofItems {toks : List Token} (hp : ∀ t ∈ toks, t.kind ≠ .eof)
    (h : ofItems source (Item.split toks) = .error es) : ∀ e ∈ es, e.Ended toks := by
  unfold ofItems at h
  simp only at h
  split at h
  · cases h
  · cases h
    intro e he hend
    obtain ⟨r, hr, he⟩ := List.mem_filterMap.mp he
    obtain ⟨i, hi, rfl⟩ := List.mem_map.mp hr
    split at he
    · rename_i issue hissue
      cases he
      obtain ⟨t, -, hlast, hstop⟩ := Item.stop_eq hi
      exact ⟨t, hlast, (Item.pos_atEnd (Item.mem_split hp i hi) hissue hend).trans hstop⟩
    · cases he

section
variable {toks : List Token} {stop : Pos} (hp : ∀ t ∈ toks, t.kind ≠ .eof)
  (hstop : ∃ t : Token, t.Last toks ∧ stop = t.stop)
include hp hstop

theorem Module.ended_ofTokens (h : ofTokens source toks stop = .error es) :
    ∀ e ∈ es, e.Ended toks := by
  obtain ⟨t, hlast, rfl⟩ := hstop
  have hblames := Grammar.blames_moduleHeader (fun t _ => Set.mem_univ t.pos) _
    (Reader.given_of_mem hp t.stop)
  unfold ofTokens at h
  split at h
  · rename_i issue hissue
    rw [hissue] at hblames
    cases h
    exact List.forall_mem_singleton.mpr fun he => ⟨t, hlast, Reader.at_end hblames he⟩
  · rename_i pos name c hc
    obtain ⟨t₁, t₂, t₃, htoks, -⟩ := Grammar.moduleHeader_ok hc
    have hrest : c.toks <:+ toks := ⟨[t₁, t₂, t₃], by rw [htoks]; rfl⟩
    cases hds : Decl.ofItems source (Item.split c.toks) with
    | error es' =>
      rw [hds] at h
      cases h
      intro e he hend
      obtain ⟨u, hu, hpos⟩ := Decl.ended_ofItems (fun t ht => hp t (hrest.subset ht)) hds e he hend
      exact ⟨u, hu.of_suffix hrest, hpos⟩
    | ok ds =>
      rw [hds] at h
      cases h

theorem Fragment.ended_ofItems (h : ofItems source toks stop (Item.split toks) = .error es) :
    ∀ e ∈ es, e.Ended toks := by
  unfold ofItems at h
  split at h
  · cases hds : Decl.ofItems source (Item.split toks) with
    | ok ds => rw [hds] at h; cases h
    | error es' =>
      rw [hds] at h
      cases h
      exact Decl.ended_ofItems hp hds
  · split at h
    · cases h
      exact List.forall_mem_singleton.mpr (ended_of_ne toks rfl)
    · split at h
      · rename_i issue hissue
        cases h
        obtain ⟨t, hlast, rfl⟩ := hstop
        have hblames := Reader.blames_runAll (Grammar.blames_expr fun t _ => Set.mem_univ t.pos)
          (Reader.given_of_mem hp t.stop)
        rw [hissue] at hblames
        exact List.forall_mem_singleton.mpr fun he => ⟨t, hlast, Reader.at_end hblames he⟩
      · cases h

end

theorem Lexed.last_ofText {t : Token} {ts : List Token} {stop : Pos}
    (h : ofText source text = .ok ⟨t :: ts, stop⟩) :
    ∃ u : Token, u.Last (t :: ts) ∧ stop = u.stop := by
  have hlast : (t :: ts).getLast? = some (ts.getLastD t) := by
    rw [List.getLast?_cons, List.getLastD_eq_getLast?]
  exact ⟨_, Token.last_of_getLast? hlast, stop_ofText h _ hlast⟩

theorem Module.ended_ofText (hx : Lexed.ofText source text = .ok x)
    (h : ofText source text = .error es) : ∀ e ∈ es, e.Ended x.tokens := by
  unfold ofText at h
  rw [hx] at h
  obtain ⟨toks, stop⟩ := x
  have hp := Lexed.present_ofText hx
  cases toks with
  | nil =>
    cases h
    exact List.forall_mem_singleton.mpr (ended_of_ne _ rfl)
  | cons t ts =>
    simp only at h
    split at h
    · exact ended_ofTokens hp (Lexed.last_ofText hx) h
    · cases h
      exact List.forall_mem_singleton.mpr (ended_of_ne _ rfl)

theorem Fragment.ended_ofText (hx : Lexed.ofText source text = .ok x)
    (h : ofText source text = .error es) : ∀ e ∈ es, e.Ended x.tokens := by
  unfold ofText at h
  rw [hx] at h
  obtain ⟨toks, stop⟩ := x
  have hp := Lexed.present_ofText hx
  cases toks with
  | nil => cases h
  | cons t ts =>
    simp only at h
    split at h
    · cases hm : Module.ofTokens source (t :: ts) stop with
      | ok m => rw [hm] at h; cases h
      | error es' =>
        rw [hm] at h
        cases h
        exact Module.ended_ofTokens hp (Lexed.last_ofText hx) hm
    · exact ended_ofItems hp (Lexed.last_ofText hx) h

namespace Lexed

/-- What is told about the ends in a text. -/
structure Ending (source text : String) (x : Lexed) : Prop where
  /-- The stop of a token is right behind the last character that it is written with, but for string
  literals, where it is further left by the characters that are not in their texts. -/
  token : ∀ front t back, x.tokens = front ++ t :: back → ∃ before span,
    t.Written text.toList back before span ∧
      Pos.start.after (before ++ span) = t.stop.right (span.length - t.text.length) ∧
      (t.stop = Pos.start.after (before ++ span) ↔ t.kind ≠ .string)
  /-- The text ends where its last token stops. -/
  whole : ∀ t ∈ x.tokens.getLast?, x.stop = t.stop
  /-- So does an item, be it one of all tokens or of those behind the head of a module. -/
  item : ∀ toks, toks <:+ x.tokens → ∀ i ∈ Item.split toks,
    ∃ t, i.toks.getLast? = some t ∧ t.Last x.tokens ∧ i.stop = t.stop
  /-- What is missing at an end is missed where a last token stops. -/
  ofFragment : ∀ es, Fragment.ofText source text = .error es → ∀ e ∈ es, e.Ended x.tokens
  ofModule : ∀ es, Module.ofText source text = .error es → ∀ e ∈ es, e.Ended x.tokens

/-- **The end that is told is right behind the last token unless that is a string literal.** -/
theorem ending_ofText (h : ofText source text = .ok x) : Ending source text x where
  token front t back ht := by
    have hlaid := laid_ofText h
    rw [ht] at hlaid
    obtain ⟨before, span, hw⟩ := hlaid.written
    rw [List.nil_append] at hw
    exact ⟨before, span, hw, hw.after_eq, hw.stop_iff⟩
  whole := stop_ofText h
  item toks hs i hi := by
    obtain ⟨t, ht, hlast, hstop⟩ := Item.stop_eq hi
    exact ⟨t, ht, hlast.of_suffix hs, hstop⟩
  ofFragment es he := Fragment.ended_ofText h he
  ofModule es he := Module.ended_ofText h he

/-- The literal goes up to column 13. Its text is three characters shorter, and so the end is told to be
in column 10. -/
theorem ending_literal : ∃ x es,
    ofText "s" "x = if \"a\\n\"" = .ok x ∧ x.stop = ⟨1, 10⟩ ∧
      Pos.start.after "x = if \"a\\n\"".toList = ⟨1, 13⟩ ∧
      Fragment.ofText "s" "x = if \"a\\n\"" = .error es ∧
      es.map SyntaxError.text = ["s:1:10: expected 'then', found end of input"] ∧
      Ending "s" "x = if \"a\\n\"" x := by
  have hread : (ofText "s" "x = if \"a\\n\"").toOption.map (·.stop) = some ⟨1, 10⟩ := by
    decide +kernel
  have hfault : (match Fragment.ofText "s" "x = if \"a\\n\"" with
      | .ok _ => []
      | .error es => es.map SyntaxError.text) = ["s:1:10: expected 'then', found end of input"] := by
    decide +kernel
  cases hx : ofText "s" "x = if \"a\\n\"" with
  | error e =>
    rw [hx] at hread
    cases hread
  | ok x =>
    rw [hx] at hread
    cases hf : Fragment.ofText "s" "x = if \"a\\n\"" with
    | ok f =>
      rw [hf] at hfault
      cases hfault
    | error es =>
      rw [hf] at hfault
      exact ⟨x, es, rfl, Option.some.inj hread, by decide, rfl, hfault, ending_ofText hx⟩

end Lexed

end LazySession

import LazySession.Proofs.Lang.Declarations
import LazySession.Session.Prelude
import Mathlib.Data.List.Forall2

/-!
# Reading generated declarations

The declarations that a binding makes are read as they are meant: a cell that is made at once in the
prelude, and a name that reads it in the definitions. A type that does not fit into its place, as it
breaks the line or ends in a comment, keeps the prelude from being read.
-/

namespace LazySession

open Lexeme

namespace Template

/-! ## Names -/

theorem le_iff_toNat (a c : Char) : a ≤ c ↔ a.toNat ≤ c.toNat := Iff.rfl

theorem ne_of_toNat {c d : Char} (h : c.toNat ≠ d.toNat) : c ≠ d := fun he => h (he ▸ rfl)

theorem symbols_toNat : ∀ x ∈ "+-*/<>=!&|$:\\%^.~?@#".toList,
    (x.toNat < 97 ∨ 122 < x.toNat) ∧ x ≠ '_' := by
  have hdecide : ("+-*/<>=!&|$:\\%^.~?@#".toList.all fun x =>
      decide ((x.toNat < 97 ∨ 122 < x.toNat) ∧ x ≠ '_')) = true := by decide
  intro x hx
  exact of_decide_eq_true (List.all_eq_true.mp hdecide x hx)

theorem not_symbol {c : Char} (h : 97 ≤ c.toNat ∧ c.toNat ≤ 122 ∨ c = '_') :
    isSymbol c = false := by
  by_contra hs
  rw [Bool.not_eq_false] at hs
  obtain ⟨hrange, hne⟩ := symbols_toNat c (List.contains_iff_mem.mp hs)
  rcases h with h | h
  · omega
  · exact hne h

theorem identStart_of_small {c : Char} (h : 'a' ≤ c ∧ c ≤ 'z') :
    isIdentStart c ∧ Text.isBlank c = false ∧ isSymbol c = false ∧ c ≠ '{' := by
  have h₁ : 97 ≤ c.toNat := h.1
  have h₂ : c.toNat ≤ 122 := h.2
  have hlt : c.toNat < 128 := by omega
  refine ⟨?_, ?_, not_symbol (.inl ⟨h₁, h₂⟩), ?_⟩
  · simp [isIdentStart, Text.isLower, h, hlt]
  · have hspace : c ≠ ' ' := ne_of_toNat (by change c.toNat ≠ 32; omega)
    have hcontrol : ¬ c ≤ '\r' := by
      rw [le_iff_toNat]
      change ¬ c.toNat ≤ 13
      omega
    simp only [Text.isBlank, hlt, if_true]
    simp [hspace, hcontrol]
  · exact ne_of_toNat (by change c.toNat ≠ 123; omega)

theorem isIdentPart_of_ascii {c : Char} (h : ('a' ≤ c ∧ c ≤ 'z') ∨ ('A' ≤ c ∧ c ≤ 'Z') ∨
    ('0' ≤ c ∧ c ≤ '9') ∨ c = '_' ∨ c = '\'') : isIdentPart c := by
  have hlt : c.toNat < 128 := by
    rcases h with h | h | h | rfl | rfl
    · have : c.toNat ≤ 122 := h.2
      omega
    · have : c.toNat ≤ 90 := h.2
      omega
    · have : c.toNat ≤ 57 := h.2
      omega
    · decide
    · decide
  simp only [isIdentPart, Text.isLetter, Text.isDigit, hlt, if_true]
  grind

theorem word_of_isBindName {name : String} (h : isBindName name) : Word name.toList := by
  unfold isBindName at h
  split at h
  · cases h
  · rename_i c cs hcs
    simp only [Bool.and_eq_true, Bool.or_eq_true, decide_eq_true_eq, beq_iff_eq,
      List.all_eq_true] at h
    obtain ⟨hc, hrest⟩ := h
    rw [hcs]
    refine ⟨fun x hx => ?_, by simp, fun x hx => isIdentPart_of_ascii (by grind)⟩
    cases hx
    rcases hc with hc | rfl
    · exact identStart_of_small hc
    · exact ⟨rfl, rfl, rfl, by decide⟩

end Template

/-! ## Texts -/

/-- A word as a lexeme. -/
def Lexeme.word (s : String) : Lexeme := token (.ofWord s) s.toList

theorem Lexeme.cuts_blank {c : Char} (hc : Text.isBlank c) {cs rest : List Char} {ls : List Lexeme}
    (h : Cuts cs ls rest) : Cuts (c :: cs) (blank [c] :: ls) rest :=
  .step (next_blank hc cs) h

theorem Lexeme.cuts_word {s : String} (hs : Word s.toList) {d : Char} (hd : Delimits d)
    {cs rest : List Char} {ls : List Lexeme} (h : Cuts (d :: cs) ls rest) :
    Cuts (s.toList ++ d :: cs) (word s :: ls) rest := by
  have hword := hs.cuts.stop hd cs (.inr (by simp [isLineComment, token]))
  rw [String.ofList_toList] at hword
  exact hword.append h

/-- What is scanned alone is scanned in front of a delimiter. -/
theorem Lexeme.cuts_text {text : List Char} {ls : List Lexeme} (ht : Cuts text ls []) {d : Char}
    (hd : Delimits d) (hl : d = '\n' ∨ ∀ l ∈ ls.getLast?, l.isLineComment = false)
    {cs rest : List Char} {ls' : List Lexeme} (h : Cuts (d :: cs) ls' rest) :
    Cuts (text ++ d :: cs) (ls ++ ls') rest :=
  (ht.stop hd cs hl).append h

theorem Fragment.cuts_of_ofText {source text : String} {f : Fragment}
    (h : Fragment.ofText source text = .ok f) : ∃ ls, Cuts text.toList ls [] := by
  unfold Fragment.ofText Lexed.ofText at h
  rcases hscan : scan text.toList with ⟨ls, _ | fault⟩
  · exact ⟨ls, cuts_of_scan hscan⟩
  · rw [hscan] at h
    cases h

namespace Template

theorem delimits_space : Delimits ' ' := .inl rfl

theorem delimits_line : Delimits '\n' := .inr (.inl rfl)

theorem delimits_paren : Delimits ')' := .inr (.inr rfl)

/-- What a name and its type add to the definitions. -/
def configText (x : String × String) : String :=
  "\n" ++ x.1 ++ " :: " ++ x.2 ++ "\n" ++ x.1 ++ " = readRef " ++ (x.1 ++ "Ref") ++ "\n"

/-- What they add to the prelude. -/
def cellText (x : String × String) : String :=
  "\n" ++ (x.1 ++ "Ref") ++ " :: Ref (" ++ x.2 ++ ")\n!" ++ (x.1 ++ "Ref") ++ " = newRef ()\n"

/-- The lexemes of the definitions, with those of the type. -/
def configLexemes (name : String) (ls : List Lexeme) : List Lexeme :=
  [blank ['\n'], word name, blank [' '], token .doubleColon [':', ':'], blank [' ']] ++ (ls ++
    [blank ['\n'], word name, blank [' '], token .equals ['='], blank [' '], word "readRef",
      blank [' '], word (name ++ "Ref"), blank ['\n']])

theorem cuts_symbols {s : String} {kind : TokenKind}
    (h : Cuts s.toList [token kind s.toList] []) {cs rest : List Char} {ls : List Lexeme}
    (hc : Cuts (' ' :: cs) ls rest) : Cuts (s.toList ++ ' ' :: cs) (token kind s.toList :: ls) rest :=
  cuts_text h delimits_space (.inr (by simp [isLineComment, token])) hc

theorem word_readRef : Word "readRef".toList := .of_all (by decide) (by decide)

theorem word_newRef : Word "newRef".toList := .of_all (by decide) (by decide)

theorem word_cell {name : String} (h : Word name.toList) : Word (name ++ "Ref").toList := by
  rw [String.toList_append]
  exact h.append (List.all_eq_true.mp (by decide))

theorem cuts_config {x : String × String} (hx : Word x.1.toList) {ls : List Lexeme}
    (ht : Cuts x.2.toList ls []) : Cuts (configText x).toList (configLexemes x.1 ls) [] := by
  have hshape : (configText x).toList = '\n' :: (x.1.toList ++ ' ' :: ("::".toList ++ ' ' ::
      (x.2.toList ++ '\n' :: (x.1.toList ++ ' ' :: ("=".toList ++ ' ' :: ("readRef".toList ++ ' ' ::
        ((x.1 ++ "Ref").toList ++ ['\n']))))))) := by
    simp [configText]
  rw [hshape]
  refine cuts_blank rfl (cuts_word hx delimits_space (cuts_blank rfl ?_))
  refine cuts_symbols (cuts_of_scan (by decide +kernel)) (cuts_blank rfl ?_)
  refine cuts_text ht delimits_line (.inl rfl) (cuts_blank rfl ?_)
  refine cuts_word hx delimits_space (cuts_blank rfl ?_)
  refine cuts_symbols (cuts_of_scan (by decide +kernel)) (cuts_blank rfl ?_)
  refine cuts_word word_readRef delimits_space (cuts_blank rfl ?_)
  exact cuts_word (word_cell hx) delimits_line (cuts_blank rfl .done)

/-- The lexemes of the prelude, with those between the parentheses. -/
def cellLexemes (cell : String) (ls : List Lexeme) : List Lexeme :=
  [blank ['\n'], word cell, blank [' '], token .doubleColon [':', ':'], blank [' '],
    token .conid ['R', 'e', 'f'], blank [' '], token .lparen ['(']] ++ (ls ++
    [blank ['\n'], token .bang ['!'], word cell, blank [' '], token .equals ['='], blank [' '],
      word "newRef", blank [' '], token .lparen ['('], token .rparen [')'], blank ['\n']])

/-- A cell can be cut off whatever follows. A comment behind the type swallows the parenthesis. -/
theorem cuts_cell {x : String × String} (hx : Word x.1.toList) {ls : List Lexeme}
    (ht : Cuts x.2.toList ls []) (rest : List Char) : ∃ ls',
      (ls' = ls ++ [token .rparen [')']] ∨ ∃ ls₀ l l', l.token? = none ∧ l'.token? = none ∧
        ls = ls₀ ++ [l] ∧ ls' = ls₀ ++ [l']) ∧
      Cuts ((cellText x).toList ++ rest) (cellLexemes (x.1 ++ "Ref") ls') rest := by
  have hcell := word_cell hx
  have hshape : (cellText x).toList ++ rest = '\n' :: ((x.1 ++ "Ref").toList ++ ' ' ::
      ("::".toList ++ ' ' :: ("Ref".toList ++ ' ' :: '(' :: (x.2.toList ++ ')' :: '\n' :: '!' ::
        ((x.1 ++ "Ref").toList ++ ' ' :: ("=".toList ++ ' ' :: ("newRef".toList ++ ' ' :: '(' ::
          ')' :: '\n' :: rest))))))) := by
    simp [cellText]
  have hmake : Cuts ('\n' :: '!' :: ((x.1 ++ "Ref").toList ++ ' ' :: ("=".toList ++ ' ' ::
      ("newRef".toList ++ ' ' :: '(' :: ')' :: '\n' :: rest))))
      [blank ['\n'], token .bang ['!'], word (x.1 ++ "Ref"), blank [' '], token .equals ['='],
        blank [' '], word "newRef", blank [' '], token .lparen ['('], token .rparen [')'],
        blank ['\n']] rest := by
    refine cuts_blank rfl (.step (next_bang hcell _) (cuts_word hcell delimits_space ?_))
    refine cuts_blank rfl (cuts_symbols (cuts_of_scan (by decide +kernel)) (cuts_blank rfl ?_))
    refine cuts_word word_newRef delimits_space (cuts_blank rfl (.step (next_lparen _) ?_))
    exact .step (next_rparen _) (cuts_blank rfl .done)
  have hhead : ∀ {mid : List Lexeme},
      Cuts (x.2.toList ++ ')' :: '\n' :: '!' :: ((x.1 ++ "Ref").toList ++ ' ' :: ("=".toList ++
        ' ' :: ("newRef".toList ++ ' ' :: '(' :: ')' :: '\n' :: rest)))) mid rest →
      Cuts ((cellText x).toList ++ rest) ([blank ['\n'], word (x.1 ++ "Ref"), blank [' '],
        token .doubleColon [':', ':'], blank [' '], token .conid ['R', 'e', 'f'], blank [' '],
        token .lparen ['(']] ++ mid) rest := by
    intro mid hmid
    rw [hshape]
    refine cuts_blank rfl (cuts_word hcell delimits_space (cuts_blank rfl ?_))
    refine cuts_symbols (cuts_of_scan (by decide +kernel)) (cuts_blank rfl ?_)
    exact cuts_symbols (s := "Ref") (cuts_of_scan (by decide +kernel)) (cuts_blank rfl
      (.step (next_lparen _) hmid))
  by_cases hl : ∀ l ∈ ls.getLast?, l.isLineComment = false
  · refine ⟨ls ++ [token .rparen [')']], .inl rfl, ?_⟩
    have hmid := cuts_text ht delimits_paren (.inr hl) (.step (next_rparen _) hmake)
    simpa [cellLexemes] using hhead hmid
  · have hlast : ∃ l, ls.getLast? = some l ∧ l.isLineComment = true := by simpa using hl
    obtain ⟨l, hlast, hcomment⟩ := hlast
    obtain ⟨ls₀, rfl⟩ := List.getLast?_eq_some_iff.mp hlast
    obtain ⟨l', hl', hcut⟩ := ht.swallow hcomment ('!' :: ((x.1 ++ "Ref").toList ++ ' ' ::
      ("=".toList ++ ' ' :: ("newRef".toList ++ ' ' :: '(' :: ')' :: '\n' :: rest))))
    have hnone : l.token? = none := by
      simp only [isLineComment, Bool.and_eq_true, Option.isNone_iff_eq_none] at hcomment
      exact hcomment.1
    refine ⟨ls₀ ++ [l'], .inr ⟨ls₀, l, l', hnone, hl', rfl, rfl⟩, ?_⟩
    exact hhead (hcut.append hmake)

/-! ## Looks -/

/-- How the tokens of a cell look, with those between the parentheses. -/
def cellLooks (cell : String) (mid : List Look) : List Look :=
  [(.ident, cell, true), (.doubleColon, "::", false), (.conid, "Ref", false),
    (.lparen, "(", false)] ++ (mid ++
    [(.bang, "!", true), (.ident, cell, false), (.equals, "=", false), (.ident, "newRef", false),
      (.lparen, "(", false), (.rparen, ")", false)])

theorem ofWord_cell (name : String) : TokenKind.ofWord (name ++ "Ref") = .ident := by
  have hmem : 'R' ∈ (name ++ "Ref").toList := by simp
  generalize name ++ "Ref" = cell at hmem
  unfold TokenKind.ofWord
  split <;> simp at hmem ⊢

theorem looks_cell (name : String) (ls : List Lexeme) (col : Option Int) :
    looks col (cellLexemes (name ++ "Ref") ls) = cellLooks (name ++ "Ref") (looks none ls) := by
  have hcell := ofWord_cell name
  have hnew : TokenKind.ofWord "newRef" = .ident := rfl
  simp [cellLexemes, cellLooks, looks_append, word, hcell, hnew]

theorem looks_config (name : String) (ls : List Lexeme) :
    looks (some 1) (configLexemes name ls) =
      [(.ofWord name, name, true), (.doubleColon, "::", false)] ++ (looks none ls ++
        [(.ofWord name, name, true), (.equals, "=", false), (.ident, "readRef", false),
          (.ident, name ++ "Ref", false)]) := by
  have hcell := ofWord_cell name
  have hread : TokenKind.ofWord "readRef" = .ident := rfl
  simp [configLexemes, looks_append, word, hcell, hread]

/-- What stands behind the opening parenthesis of a cell: the type, and the closing parenthesis
unless a comment has swallowed it. -/
def Bracketed (ls : List Lexeme) (mid : List Look) : Prop :=
  (∃ b, mid = looks none ls ++ [(.rparen, ")", b)]) ∨ mid = looks none ls

theorem cuts_cellLooks {x : String × String} (hx : Word x.1.toList) {ls : List Lexeme}
    (ht : Cuts x.2.toList ls []) (rest : List Char) : ∃ ls' mid, Bracketed ls mid ∧
      Cuts ((cellText x).toList ++ rest) ls' rest ∧
      ∀ col, looks col ls' = cellLooks (x.1 ++ "Ref") mid := by
  obtain ⟨ls', hls', hcuts⟩ := cuts_cell hx ht rest
  refine ⟨_, looks none ls', ?_, hcuts, looks_cell x.1 ls'⟩
  rcases hls' with rfl | ⟨ls₀, l, l', hl, hl', rfl, rfl⟩
  · exact .inl ⟨_, looks_append none ls [token .rparen [')']]⟩
  · refine .inr ?_
    simp [looks_append, looks, hl, hl']

/-! ## Items -/

/-- A binding that makes a cell. -/
def making (cell : String) (p₁ p₂ p₃ : Pos) : Binding :=
  { pos := p₁, name := cell, params := [], strict := true
    body := .app (.var p₂ "newRef") [.unit p₃] }

/-- A binding that reads a cell. -/
def reading (name cell : String) (p₁ p₂ p₃ : Pos) : Binding :=
  { pos := p₁, name, params := [], strict := false
    body := .app (.var p₂ "readRef") [.var p₃ cell] }

/-- The declarations of a cell that holds values of a type. -/
def DeclaresCell (cell : String) (type : TypeExpr) (sig bind : Decl) : Prop :=
  (∃ p q type', type.Alike type' ∧ sig = .signature p [cell] (.app (.con q "Ref") [type'])) ∧
  ∃ p₁ p₂ p₃, bind = .binding (making cell p₁ p₂ p₃)

theorem exists_last_start {toks : List Token} (h : ∃ t ∈ toks, Item.startsItem t) :
    ∃ before t after, toks = before ++ t :: after ∧ Item.startsItem t ∧
      ∀ u ∈ after, Item.startsItem u = false := by
  induction toks with
  | nil => simp at h
  | cons t toks ih =>
    by_cases hrest : ∃ u ∈ toks, Item.startsItem u
    · obtain ⟨before, u, after, rfl, hu, hafter⟩ := ih hrest
      exact ⟨t :: before, u, after, rfl, hu, hafter⟩
    · obtain ⟨u, hu, hs⟩ := h
      rcases List.mem_cons.mp hu with rfl | hu
      · exact ⟨[], u, toks, rfl, hs, by simpa using hrest⟩
      · exact absurd ⟨u, hu, hs⟩ hrest

section
variable {cell : String} {mid : List Look} {ls : List Lexeme} {type : TypeExpr} {toks : List Token}

theorem Bracketed.inType (hmid : Bracketed ls mid) (hs : type.Spelled (words ls)) :
    ∀ k ∈ mid, k.1.inType := by
  intro k hk
  rcases hmid with ⟨b, rfl⟩ | rfl
  · rcases List.mem_append.mp hk with hk | hk
    · exact hs.inType _ (mem_words hk)
    · rw [List.mem_singleton.mp hk]
      rfl
  · exact hs.inType _ (mem_words hk)

/-- No token between the parentheses starts an item: such an item is no declaration. -/
theorem Bracketed.unbroken (hmid : Bracketed ls mid) (hs : type.Spelled (words ls))
    {ms after : List Token} (before : List Token) (hms : ms.map Token.look = mid)
    (hafter : Item.Ends after)
    (hok : ∀ i : Item, i.Cut → ∀ before' after',
      before ++ (ms ++ after) = before' ++ (i.toks ++ after') →
      Item.Ends after' → ∃ d, i.decl = .ok d) : ∀ t ∈ ms, Item.startsItem t = false := by
  by_contra hne
  have hstart : ∃ t ∈ ms, Item.startsItem t := by simpa using hne
  obtain ⟨a, t, b, rfl, ht, hb⟩ := exists_last_start hstart
  obtain ⟨d, hd⟩ := hok ⟨t, b⟩ ⟨ht, hb⟩ (before ++ a) after (by simp [Item.toks]) hafter
  obtain ⟨c, hc, _⟩ := Reader.runAll_ok.mp hd
  refine (Grammar.gives_decl_inType _ _ _ (fun u hu => ?_) hc).1
  have hlook : u.look ∈ mid := hms ▸ List.mem_map_of_mem (List.mem_append_right a hu)
  exact hmid.inType hs _ hlook

theorem decl_cell {t₁ t₂ t₃ t₄ : Token} {ms : List Token} {stop : Pos} (h₁ : t₁.kind = .ident)
    (h₂ : t₂.kind = .doubleColon) (h₃ : t₃.kind = .conid) (h₄ : t₄.kind = .lparen)
    (hs : type.Spelled (words ls)) (hmid : Bracketed ls mid) (hms : ms.map Token.look = mid) {d : Decl}
    (hd : Grammar.decl.runAll (t₁ :: t₂ :: t₃ :: t₄ :: ms) stop = .ok d) :
    ∃ type', type.Alike type' ∧ d = .signature t₁.pos [t₁.text] (.app (.con t₃.pos t₃.text) [type']) := by
  obtain ⟨c, hc, -⟩ := Reader.runAll_ok.mp hd
  rw [Grammar.run_decl_signature h₁ h₂] at hc
  have hfuel : Grammar.fuel ⟨t₃ :: t₄ :: ms, stop, []⟩ = (8 * ms.length + 21) + 3 := by
    simp only [Grammar.fuel, List.length_cons]
    omega
  rw [hfuel] at hc
  rcases hmid with ⟨b, rfl⟩ | rfl
  · obtain ⟨ms', rs, rfl, hms', hrs⟩ := List.map_eq_append_iff.mp hms
    obtain ⟨r, rfl, hr⟩ : ∃ r, rs = [r] ∧ r.look = (.rparen, ")", b) := by
      simpa [List.map_eq_cons_iff] using hrs
    obtain ⟨hr, -⟩ := Token.look_eq hr
    obtain ⟨type', halike, hread⟩ := hs.read ms' [r] stop [] (8 * (ms' ++ [r]).length + 21)
      (by rw [Token.word_look, hms', words_looks]) (by simpa [Reader.Closes] using hr) (by simp)
    rw [Grammar.run_typeExpr_ref h₃ h₄ hr hread] at hc
    cases hc
    exact ⟨type', halike, rfl⟩
  · obtain ⟨type', -, hread⟩ := hs.read ms [] stop [] (8 * ms.length + 21)
      (by rw [Token.word_look, hms, words_looks]) (by simp [Reader.Closes]) (by omega)
    rw [List.append_nil] at hread
    obtain ⟨e, he⟩ := Grammar.run_typeExpr_open h₃ h₄ hread
    rw [he] at hc
    cases hc

theorem cell_items (hs : type.Spelled (words ls)) (hmid : Bracketed ls mid)
    (htoks : toks.map Token.look = cellLooks cell mid)
    (hok : ∀ i : Item, i.Cut → ∀ before after, toks = before ++ (i.toks ++ after) →
      Item.Ends after → ∃ d, i.decl = .ok d) :
    (∀ k ∈ looks none ls, k.2.2 = false) ∧ ∃ i j : Item, toks = i.toks ++ j.toks ∧ i.Cut ∧ j.Cut ∧
      ∃ sig bind, i.decl = .ok sig ∧ j.decl = .ok bind ∧ DeclaresCell cell type sig bind := by
  simp only [cellLooks, List.cons_append, List.nil_append, List.map_eq_cons_iff,
    List.map_eq_append_iff, List.map_eq_nil_iff] at htoks
  obtain ⟨t₁, _, rfl, h₁, t₂, _, rfl, h₂, t₃, _, rfl, h₃, t₄, _, rfl, h₄, ms, _, rfl, hms,
    u₁, _, rfl, k₁, u₂, _, rfl, k₂, u₃, _, rfl, k₃, u₄, _, rfl, k₄, u₅, _, rfl, k₅, u₆, _, rfl, k₆,
    rfl⟩ := htoks
  obtain ⟨hk₁, hx₁, hs₁⟩ := Token.look_eq h₁
  obtain ⟨hk₂, -, hs₂⟩ := Token.look_eq h₂
  obtain ⟨hk₃, hx₃, hs₃⟩ := Token.look_eq h₃
  obtain ⟨hk₄, -, hs₄⟩ := Token.look_eq h₄
  have hends : Item.Ends [u₁, u₂, u₃, u₄, u₅, u₆] := by
    intro t ht
    cases ht
    exact (Token.look_eq k₁).2.2
  -- nothing in the type starts an item, or the signature would be cut short
  have hunbroken : ∀ t ∈ ms, Item.startsItem t = false :=
    hmid.unbroken hs [t₁, t₂, t₃, t₄] hms hends hok
  have hi : (⟨t₁, t₂ :: t₃ :: t₄ :: ms⟩ : Item).Cut := by
    refine ⟨hs₁, fun t ht => ?_⟩
    simp only [List.mem_cons] at ht
    rcases ht with rfl | rfl | rfl | ht
    · exact hs₂
    · exact hs₃
    · exact hs₄
    · exact hunbroken t ht
  have hj : (⟨u₁, [u₂, u₃, u₄, u₅, u₆]⟩ : Item).Cut := by
    refine ⟨(Token.look_eq k₁).2.2, fun t ht => ?_⟩
    simp only [List.mem_cons, List.not_mem_nil, or_false] at ht
    rcases ht with rfl | rfl | rfl | rfl | rfl
    · exact (Token.look_eq k₂).2.2
    · exact (Token.look_eq k₃).2.2
    · exact (Token.look_eq k₄).2.2
    · exact (Token.look_eq k₅).2.2
    · exact (Token.look_eq k₆).2.2
  obtain ⟨sig, hsig⟩ := hok _ hi [] [u₁, u₂, u₃, u₄, u₅, u₆] (by simp [Item.toks]) hends
  obtain ⟨type', halike, rfl⟩ := decl_cell hk₁ hk₂ hk₃ hk₄ hs hmid hms hsig
  have hbind : (⟨u₁, [u₂, u₃, u₄, u₅, u₆]⟩ : Item).decl =
      .ok (.binding (making u₂.text u₂.pos u₄.pos u₅.pos)) := by
    have h := Grammar.decl_make u₆.stop (Token.look_eq k₁).1 (Token.look_eq k₂).1
      (Token.look_eq k₃).1 (Token.look_eq k₄).1 (Token.look_eq k₅).1 (Token.look_eq k₆).1
    rw [(Token.look_eq k₄).2.1] at h
    exact h
  rw [(Token.look_eq k₂).2.1] at hbind
  rw [hx₁, hx₃] at hsig
  refine ⟨fun k hk => ?_, _, _, by simp [Item.toks], hi, hj, _, _, hsig, hbind,
    ⟨_, _, type', halike, rfl⟩, _, _, _, rfl⟩
  have hmem : k ∈ ms.map Token.look := by
    rw [hms]
    rcases hmid with ⟨b, rfl⟩ | rfl
    · exact List.mem_append_left _ hk
    · exact hk
  obtain ⟨t, ht, rfl⟩ := List.mem_map.mp hmem
  exact hunbroken t ht

end

/-! ## The prelude -/

/-- A name that can be bound and a text that can be scanned. -/
structure Scannable (x : String × String) : Prop where
  name : Word x.1.toList
  type : Cuts x.2.toList (scan x.2.toList).1 []

/-- A name that can be bound and a text that is a type. -/
structure Declarable (x : String × String) : Prop where
  name : Word x.1.toList
  type : ∃ type, TypeExpr.ofText? x.2 = some type

theorem Declarable.scannable {x : String × String} (h : Declarable x) : Scannable x := by
  obtain ⟨type, htype⟩ := h.type
  exact ⟨h.name, (TypeExpr.spelled_of_ofText? htype).1⟩

/-- The type stays on its line, or is indented: none of its tokens starts an item. -/
def Unbroken (type : String) : Prop := ∀ k ∈ looks none (scan type.toList).1, k.2.2 = false

inductive CellsLooks : List (String × String) → List Look → Prop
  | nil : CellsLooks [] []
  | cons {x : String × String} {xs : List (String × String)} {mid ks : List Look}
      (hmid : Bracketed (scan x.2.toList).1 mid) (h : CellsLooks xs ks) :
      CellsLooks (x :: xs) (cellLooks (x.1 ++ "Ref") mid ++ ks)

inductive DeclaresCells : List (String × String) → List Decl → Prop
  | nil : DeclaresCells [] []
  | cons {x : String × String} {xs : List (String × String)} {type : TypeExpr} {sig bind : Decl}
      {ds : List Decl} (htype : TypeExpr.ofText? x.2 = some type)
      (hx : DeclaresCell (x.1 ++ "Ref") type sig bind) (h : DeclaresCells xs ds) :
      DeclaresCells (x :: xs) (sig :: bind :: ds)

theorem cuts_cells {xs : List (String × String)} (hxs : ∀ x ∈ xs, Scannable x) :
    ∃ ls ks, CellsLooks xs ks ∧ Cuts (xs.flatMap fun x => (cellText x).toList) ls [] ∧
      ∀ col, looks col ls = ks := by
  induction xs with
  | nil => exact ⟨[], [], .nil, .done, fun _ => rfl⟩
  | cons x xs ih =>
    obtain ⟨ls, ks, hks, hcuts, hlooks⟩ := ih fun y hy => hxs y (List.mem_cons_of_mem _ hy)
    obtain ⟨hname, hscan⟩ := hxs x List.mem_cons_self
    obtain ⟨ls', mid, hmid, hcut, hlook⟩ := cuts_cellLooks hname hscan
      (xs.flatMap fun x => (cellText x).toList)
    refine ⟨ls' ++ ls, _, .cons hmid hks, hcut.append hcuts, fun col => ?_⟩
    rw [looks_append, hlook, hlooks]

theorem CellsLooks.ends {xs : List (String × String)} {ks : List Look} (h : CellsLooks xs ks)
    {toks : List Token} (htoks : toks.map Token.look = ks) : Item.Ends toks := by
  cases h with
  | nil =>
    obtain rfl : toks = [] := by simpa using htoks
    intro t ht
    cases ht
  | cons hmid h =>
    obtain ⟨t, ts, rfl, ht, -⟩ := List.map_eq_cons_iff.mp htoks
    intro u hu
    cases hu
    exact (Token.look_eq ht).2.2

theorem cells_items {xs : List (String × String)} (hxs : ∀ x ∈ xs, Declarable x) {ks : List Look}
    (hks : CellsLooks xs ks) {toks : List Token} (htoks : toks.map Token.look = ks)
    (hok : ∀ i : Item, i.Cut → ∀ before after, toks = before ++ (i.toks ++ after) →
      Item.Ends after → ∃ d, i.decl = .ok d) :
    (∀ x ∈ xs, Unbroken x.2) ∧ ∃ (items : List Item) (decls : List Decl),
      toks = items.flatMap Item.toks ∧ (∀ i ∈ items, i.Cut) ∧
      items.map Item.decl = decls.map .ok ∧ DeclaresCells xs decls := by
  induction hks generalizing toks with
  | nil =>
    obtain rfl : toks = [] := by simpa using htoks
    exact ⟨by simp, [], [], rfl, by simp, rfl, .nil⟩
  | @cons x xs mid ks hmid hks ih =>
    obtain ⟨ts, us, rfl, hts, hus⟩ := List.map_eq_append_iff.mp htoks
    obtain ⟨-, type, htype⟩ := hxs x List.mem_cons_self
    obtain ⟨hunbroken, i, j, rfl, hi, hj, sig, bind, hsig, hbind, hdecl⟩ :=
      cell_items (TypeExpr.spelled_of_ofText? htype).2 hmid hts fun i hi before after he hends =>
        hok i hi before (after ++ us) (by rw [he]; simp) (hends.append (hks.ends hus))
    obtain ⟨hrest, items, decls, rfl, hcut, hdecls, hdeclares⟩ :=
      ih (fun y hy => hxs y (List.mem_cons_of_mem _ hy)) hus fun k hk before after he hends =>
        hok k hk (i.toks ++ j.toks ++ before) after (by rw [he]; simp) hends
    refine ⟨?_, i :: j :: items, sig :: bind :: decls, by simp, ?_, by simp [hsig, hbind, hdecls],
      .cons htype hdecl hdeclares⟩
    · intro y hy
      rcases List.mem_cons.mp hy with rfl | hy
      · exact hunbroken
      · exact hrest y hy
    · intro k hk
      simp only [List.mem_cons] at hk
      rcases hk with rfl | rfl | hk
      · exact hi
      · exact hj
      · exact hcut k hk

/-- The prelude of a session with names and types bound, in their order. -/
def preludeText (xs : List (String × String)) : String :=
  xs.foldl (fun s x => s ++ cellText x) (generator {}).prelude

theorem preludeText_snoc (xs : List (String × String)) (x : String × String) :
    preludeText (xs ++ [x]) = preludeText xs ++ cellText x := by
  simp [preludeText]

theorem toList_preludeText (xs : List (String × String)) :
    (preludeText xs).toList =
      (generator {}).prelude.toList ++ xs.flatMap fun x => (cellText x).toList := by
  have hfold : ∀ s : String, (xs.foldl (fun s x => s ++ cellText x) s).toList =
      s.toList ++ xs.flatMap fun x => (cellText x).toList := by
    induction xs with
    | nil => simp
    | cons x xs ih => simp [ih]
  exact hfold _

theorem cuts_header (rest : List Char) :
    ∃ ls, Cuts ((generator {}).prelude.toList ++ rest) ls rest ∧ looks (some 1) ls =
      [(.kwModule, "module", true), (.conid, "EvalSession.Prelude", false),
        (.kwWhere, "where", false)] := by
  have hscan : scan "module EvalSession.Prelude where".toList =
      ([token .kwModule "module".toList, blank [' '], token .conid "EvalSession.Prelude".toList,
        blank [' '], token .kwWhere "where".toList], none) := by
    decide +kernel
  have hcuts := (cuts_of_scan hscan).stop delimits_line rest (.inl rfl)
  have hshape : (generator {}).prelude.toList ++ rest =
      "module EvalSession.Prelude where".toList ++ '\n' :: rest := by
    simp [generator]
  rw [hshape]
  refine ⟨_, hcuts.append (cuts_blank rfl .done), ?_⟩
  simp

/-- A text behind the header of the prelude that can be read at all is read as a module of its
name. -/
theorem read_header {text : String} {rest : List Char}
    (htext : text.toList = (generator {}).prelude.toList ++ rest) {source : String} {f : Fragment}
    (h : Fragment.ofText source text = .ok f) :
    ∃ ls col toks pos decls, Cuts rest ls [] ∧ toks.map Token.look = looks col ls ∧
      Decl.ofItems source (Item.split toks) = .ok decls ∧
      f = .module { pos, name := (generator {}).preludeArtifact, decls } := by
  obtain ⟨ls₁, hcuts₁, hlooks₁⟩ := cuts_header rest
  obtain ⟨ls, hls⟩ := Fragment.cuts_of_ofText h
  obtain ⟨lexed, hlexed, hlook⟩ := Lexed.ofText_of_cuts source hls
  obtain ⟨ls₂, rfl, hcuts₂⟩ := hcuts₁.rest (htext ▸ hls)
  rw [looks_append, hlooks₁] at hlook
  obtain ⟨t₁, _, htoks, h₁, t₂, _, rfl, h₂, t₃, toks, rfl, h₃, hrest⟩ : ∃ t₁ ts,
      lexed.tokens = t₁ :: ts ∧ t₁.look = (.kwModule, "module", true) ∧ ∃ t₂ ts', ts = t₂ :: ts' ∧
      t₂.look = (.conid, "EvalSession.Prelude", false) ∧ ∃ t₃ ts'', ts' = t₃ :: ts'' ∧
      t₃.look = (.kwWhere, "where", false) ∧
      ts''.map Token.look = looks (columnAfter (some 1) ls₁) ls₂ := by
    simpa [List.map_eq_cons_iff] using hlook
  obtain ⟨tokens, stop⟩ := lexed
  simp only at htoks
  subst htoks
  have hheader : Grammar.moduleHeader.run ⟨t₁ :: t₂ :: t₃ :: toks, stop, []⟩ =
      .ok ((t₁.pos, t₂.text), ⟨toks, stop, []⟩) :=
    Grammar.run_moduleHeader (Token.look_eq h₁).1 (Token.look_eq h₂).1 (Token.look_eq h₃).1
  have hmodule : Fragment.ofText source text =
      ((Decl.ofItems source (Item.split toks)).map fun decls =>
        .module ⟨t₁.pos, t₂.text, decls⟩) := by
    unfold Fragment.ofText
    rw [hlexed]
    simp only [(Token.look_eq h₁).1, if_true, Module.ofTokens, hheader]
    cases Decl.ofItems source (Item.split toks) <;> rfl
  rw [hmodule] at h
  cases hitems : Decl.ofItems source (Item.split toks) with
  | error es =>
    rw [hitems] at h
    cases h
  | ok decls =>
    rw [hitems] at h
    cases h
    rw [(Token.look_eq h₂).2.1]
    exact ⟨ls₂, _, toks, t₁.pos, decls, hcuts₂, hrest, hitems, rfl⟩

/-- The tokens of a prelude that can be read, behind its header. -/
theorem read_cells {xs : List (String × String)} (hxs : ∀ x ∈ xs, Scannable x) {source : String}
    {f : Fragment} (h : Fragment.ofText source (preludeText xs) = .ok f) :
    ∃ ks toks pos decls, CellsLooks xs ks ∧ toks.map Token.look = ks ∧
      Decl.ofItems source (Item.split toks) = .ok decls ∧
      f = .module { pos, name := (generator {}).preludeArtifact, decls } := by
  obtain ⟨ls, col, toks, pos, decls, hcuts, hlook, hitems, hf⟩ :=
    read_header (toList_preludeText xs) h
  obtain ⟨ls', ks, hks, hcuts', hlooks⟩ := cuts_cells hxs
  obtain rfl : ls = ls' := by
    have he := hcuts.scan
    rw [hcuts'.scan] at he
    exact (congrArg Prod.fst he).symm
  exact ⟨ks, toks, pos, decls, hks, hlook.trans (hlooks col), hitems, hf⟩

/-- A prelude that can be read at all is read as its cells. -/
theorem read_prelude {xs : List (String × String)} (hxs : ∀ x ∈ xs, Declarable x) {source : String}
    {f : Fragment} (h : Fragment.ofText source (preludeText xs) = .ok f) :
    (∀ x ∈ xs, Unbroken x.2) ∧ ∃ pos decls,
      f = .module { pos, name := (generator {}).preludeArtifact, decls } ∧
      DeclaresCells xs decls := by
  obtain ⟨ks, toks, pos, decls, hks, hlook, hitems, hf⟩ :=
    read_cells (fun x hx => (hxs x hx).scannable) h
  have hok := Decl.decl_of_ofItems hitems
  obtain ⟨hunbroken, items, decls', rfl, hcut, hdecls, hdeclares⟩ :=
    cells_items hxs hks hlook fun i hi before after he hends =>
      hok i (he ▸ hi.mem_split hends before)
  rw [Item.split_flatMap hcut, Decl.ofItems_eq source hdecls] at hitems
  cases hitems
  exact ⟨hunbroken, pos, decls, hf, hdeclares⟩

/-! ## The definitions -/

/-- The declarations of a name that reads its cell. -/
def DeclaresName (name : String) (type : TypeExpr) (sig bind : Decl) : Prop :=
  (∃ p type', type.Alike type' ∧ sig = .signature p [name] type') ∧
  ∃ p₁ p₂ p₃, bind = .binding (reading name (name ++ "Ref") p₁ p₂ p₃)

theorem leadsToDecl_sign {t : Token} (h : t.kind = .equals ∨ t.kind = .doubleColon)
    (ts : List Token) : Item.leadsToDecl (t :: ts) := by
  unfold Item.leadsToDecl
  rcases h with h | h <;> simp [h]

theorem read_config {x : String × String} (hx : Word x.1.toList)
    (hk : TokenKind.ofWord x.1 = .ident) {type : TypeExpr} (ht : TypeExpr.ofText? x.2 = some type)
    (hu : Unbroken x.2) (source : String) :
    ∃ sig bind, Fragment.ofText source (configText x) = .ok (.definitions [sig, bind]) ∧
      DeclaresName x.1 type sig bind := by
  obtain ⟨hcuts, hs⟩ := TypeExpr.spelled_of_ofText? ht
  obtain ⟨⟨tokens, stop⟩, hlexed, hlook⟩ := Lexed.ofText_of_cuts source (cuts_config hx hcuts)
  rw [looks_config, hk] at hlook
  simp only [List.cons_append, List.nil_append, List.map_eq_cons_iff, List.map_eq_append_iff,
    List.map_eq_nil_iff] at hlook
  obtain ⟨t₁, _, rfl, h₁, t₂, _, rfl, h₂, ms, _, rfl, hms, u₁, _, rfl, k₁, u₂, _, rfl, k₂,
    u₃, _, rfl, k₃, u₄, _, rfl, k₄, rfl⟩ := hlook
  obtain ⟨hk₁, hx₁, hs₁⟩ := Token.look_eq h₁
  obtain ⟨hk₂, -, hs₂⟩ := Token.look_eq h₂
  obtain ⟨hq₁, hy₁, hf₁⟩ := Token.look_eq k₁
  obtain ⟨hq₂, -, hf₂⟩ := Token.look_eq k₂
  obtain ⟨hq₃, hy₃, hf₃⟩ := Token.look_eq k₃
  obtain ⟨hq₄, hy₄, hf₄⟩ := Token.look_eq k₄
  have hunbroken : ∀ t ∈ t₂ :: ms, Item.startsItem t = false := by
    intro t ht
    rcases List.mem_cons.mp ht with rfl | ht
    · exact hs₂
    · exact hu _ (hms ▸ List.mem_map_of_mem ht)
  have hrest : ∀ t ∈ [u₂, u₃, u₄], Item.startsItem t = false := by
    intro t ht
    simp only [List.mem_cons, List.not_mem_nil, or_false] at ht
    rcases ht with rfl | rfl | rfl
    · exact hf₂
    · exact hf₃
    · exact hf₄
  have hsplit : Item.split (t₁ :: t₂ :: (ms ++ [u₁, u₂, u₃, u₄])) =
      [⟨t₁, t₂ :: ms⟩, ⟨u₁, [u₂, u₃, u₄]⟩] := by
    have hcut : ∀ i ∈ [(⟨t₁, t₂ :: ms⟩ : Item), ⟨u₁, [u₂, u₃, u₄]⟩], i.Cut := by
      intro i hi
      simp only [List.mem_cons, List.not_mem_nil, or_false] at hi
      rcases hi with rfl | rfl
      · exact ⟨hs₁, hunbroken⟩
      · exact ⟨hf₁, hrest⟩
    simpa [Item.toks] using Item.split_flatMap hcut
  -- the type fills the rest of its item
  obtain ⟨type', halike, hsig⟩ : ∃ type', type.Alike type' ∧
      (⟨t₁, t₂ :: ms⟩ : Item).decl = .ok (.signature t₁.pos [t₁.text] type') := by
    generalize hstop : (⟨t₁, t₂ :: ms⟩ : Item).stop = istop
    obtain ⟨type', halike, hread⟩ := hs.read ms [] istop []
      (Grammar.fuel ⟨ms, istop, []⟩) (by rw [Token.word_look, hms, words_looks])
      (by simp [Reader.Closes]) (by simp [Grammar.fuel])
    rw [List.append_nil] at hread
    refine ⟨type', halike, ?_⟩
    unfold Item.decl
    rw [hstop]
    refine Reader.runAll_ok.mpr ⟨⟨[], istop, []⟩, ?_, rfl⟩
    rw [Item.toks, Grammar.run_decl_signature hk₁ hk₂, hread]
  have hbind : (⟨u₁, [u₂, u₃, u₄]⟩ : Item).decl =
      .ok (.binding (reading u₁.text u₄.text u₁.pos u₃.pos u₄.pos)) := by
    have h := Grammar.decl_apply u₄.stop hq₁ hq₂ hq₃ hq₄
    rw [hy₃] at h
    exact h
  rw [hx₁] at hsig
  rw [hy₁, hy₄] at hbind
  have hdecls : Decl.ofItems source [⟨t₁, t₂ :: ms⟩, ⟨u₁, [u₂, u₃, u₄]⟩] =
      .ok [.signature t₁.pos [x.1] type',
        .binding (reading x.1 (x.1 ++ "Ref") u₁.pos u₃.pos u₄.pos)] :=
    Decl.ofItems_eq source (by simp only [List.map_cons, List.map_nil, hsig, hbind])
  refine ⟨_, _, ?_, ⟨t₁.pos, type', halike, rfl⟩, u₁.pos, u₃.pos, u₄.pos, rfl⟩
  unfold Fragment.ofText
  rw [hlexed]
  simp only [hk₁, reduceCtorEq, if_false]
  have hdecl : ([⟨t₁, t₂ :: ms⟩, ⟨u₁, [u₂, u₃, u₄]⟩] : List Item).all (·.isDecl) := by
    simp [Item.isDecl, hk₁, hq₁, leadsToDecl_sign (.inr hk₂), leadsToDecl_sign (.inl hq₂)]
  rw [hsplit, Fragment.ofItems, if_pos hdecl, hdecls]
  rfl

theorem read_import (source : String) :
    Fragment.ofText source (generator {}).preludeImport =
      .ok (.definitions [.importing ⟨2, 1⟩ (generator {}).preludeArtifact]) := by
  have hscan : scan (generator {}).preludeImport.toList =
      ([blank ['\n'], token .kwImport "import".toList, blank [' '],
        token .conid "EvalSession.Prelude".toList, blank ['\n']], none) := by
    decide +kernel
  unfold Fragment.ofText Lexed.ofText
  rw [hscan]
  rfl

theorem read_name {name : String} (hx : Word name.toList) (hk : TokenKind.ofWord name = .ident)
    (source : String) : ∃ p, Fragment.ofText source name = .ok (.expression (.var p name)) := by
  obtain ⟨⟨tokens, stop⟩, hlexed, hlook⟩ := Lexed.ofText_of_cuts source hx.cuts
  rw [String.ofList_toList, hk] at hlook
  simp only [looks_token, looks_nil, String.ofList_toList] at hlook
  obtain ⟨t, rfl, ht⟩ : ∃ t, tokens = [t] ∧ t.look = (.ident, name, true) := by
    simpa [List.map_eq_cons_iff] using hlook
  obtain ⟨hkind, htext, -⟩ := Token.look_eq ht
  refine ⟨t.pos, ?_⟩
  unfold Fragment.ofText
  rw [hlexed]
  cases t
  simp only at hkind htext
  subst hkind htext
  rfl

end Template

end LazySession

import LazySession.Proofs.Session.Generated

/-!
# What the definitions say about the prelude

The prelude and the definitions are generated from the same names and types. If both can be read,
the names are no keywords and the types are types, each on its line: `Template.legible`. So no type
can bring other declarations into the prelude than those that were meant.
-/

namespace LazySession

open Lexeme

namespace Template

/-! ## Scanning -/

theorem brace_not_mem {cs : List Char} (h : Word cs) : '}' ∉ cs := by
  intro hm
  cases cs with
  | nil => cases hm
  | cons c cs =>
    rcases List.mem_cons.mp hm with rfl | hm
    · have := (h.start _ rfl).1
      simp [isIdentStart, Text.isLower] at this
    · have := h.part _ hm
      simp [isIdentPart, Text.isLetter, Text.isDigit] at this

theorem scannable_of_config {x : String × String} (hx : Word x.1.toList) {source : String}
    {f : Fragment} (h : Fragment.ofText source (configText x) = .ok f) : Scannable x := by
  obtain ⟨ls, hls⟩ := Fragment.cuts_of_ofText h
  have hshape : (configText x).toList = '\n' :: (x.1.toList ++ ' ' :: ("::".toList ++ ' ' ::
      (x.2.toList ++ '\n' :: (x.1 ++ " = readRef " ++ (x.1 ++ "Ref") ++ "\n").toList))) := by
    simp [configText]
  have hhead : ∀ rest, Cuts ('\n' :: (x.1.toList ++ ' ' :: ("::".toList ++ ' ' :: rest)))
      [blank ['\n'], word x.1, blank [' '], token .doubleColon "::".toList, blank [' ']] rest :=
    fun rest => cuts_blank rfl (cuts_word hx delimits_space (cuts_blank rfl
      (cuts_symbols (cuts_of_scan (by decide +kernel)) (cuts_blank rfl .done))))
  rw [hshape] at hls
  obtain ⟨_, -, hrest⟩ := (hhead _).rest hls
  have hbrace : '}' ∉ (x.1 ++ " = readRef " ++ (x.1 ++ "Ref") ++ "\n").toList := by
    have hname := brace_not_mem hx
    simp [hname]
  obtain ⟨ls', hls'⟩ := Cuts.alone hbrace _ (Nat.le_refl _) hrest
  exact ⟨hx, by rw [hls'.scan]; exact hls'⟩

/-! ## The first item -/

theorem exists_item (toks : List Token) : ∃ rest more, toks = rest ++ more ∧
    (∀ t ∈ rest, Item.startsItem t = false) ∧ Item.Ends more := by
  refine ⟨toks.takeWhile (!Item.startsItem ·), toks.dropWhile (!Item.startsItem ·),
    (List.takeWhile_append_dropWhile).symm, fun t ht => ?_, fun t ht => ?_⟩
  · simpa using List.mem_takeWhile_imp ht
  · have := List.head?_dropWhile_not (!Item.startsItem ·) toks
    simp_all

/-- The items of a text that is read as definitions are declarations. -/
theorem items_of_definitions {source text : String} {decls : List Decl} {toks : List Token}
    {stop : Pos} (hlexed : Lexed.ofText source text = .ok ⟨toks, stop⟩)
    (h : Fragment.ofText source text = .ok (.definitions decls)) :
    (∀ t ∈ toks.head?, t.kind ≠ .kwModule) ∧ ∀ i ∈ Item.split toks, i.isDecl ∧ ∃ d, i.decl = .ok d := by
  unfold Fragment.ofText at h
  rw [hlexed] at h
  simp only at h
  cases toks with
  | nil => exact ⟨nofun, nofun⟩
  | cons t ts =>
    simp only at h
    split at h
    · cases hm : Module.ofTokens source (t :: ts) stop with
      | error es => rw [hm] at h; cases h
      | ok m => rw [hm] at h; cases h
    · rename_i hk
      refine ⟨fun u hu => by cases hu; exact hk, fun i hi => ?_⟩
      unfold Fragment.ofItems at h
      split at h
      · rename_i hall
        refine ⟨List.all_eq_true.mp hall i hi, ?_⟩
        cases hd : Decl.ofItems source (Item.split (t :: ts)) with
        | error es => rw [hd] at h; cases h
        | ok ds => exact Decl.decl_of_ofItems hd i hi
      · split at h
        · cases h
        · split at h <;> cases h

theorem decl_import {t₁ t₂ : Token} (toks : List Token) (stop : Pos) (h₁ : t₁.kind = .kwImport)
    (h₂ : t₂.kind = .doubleColon) : ∃ e, Grammar.decl.runAll (t₁ :: t₂ :: toks) stop = .error e := by
  cases t₁
  cases t₂
  simp only at h₁ h₂
  subst h₁ h₂
  exact ⟨_, rfl⟩

/-- A declaration of a type has the type in all of its tokens. -/
theorem spelled_of_decl {t₁ t₂ : Token} {toks : List Token} {stop : Pos} {d : Decl}
    (h₁ : t₁.kind = .ident) (h₂ : t₂.kind = .doubleColon) (hp : ∀ t ∈ toks, t.kind ≠ .eof)
    (h : Grammar.decl.runAll (t₁ :: t₂ :: toks) stop = .ok d) :
    ∃ type, TypeExpr.Spelled (toks.map Token.word) type := by
  obtain ⟨c, hrun, hend⟩ := Reader.runAll_ok.mp h
  rw [Grammar.run_decl_signature h₁ h₂] at hrun
  split at hrun
  · rename_i type c' hr
    cases hrun
    have htype : Grammar.type.runAll toks stop = .ok type := by
      refine Reader.runAll_ok.mpr ⟨c, ?_, hend⟩
      rw [Grammar.run_type]
      exact hr
    exact ⟨type, TypeExpr.spelled_of_runAll hp htype⟩
  · cases hrun

/-- The first item of definitions that can be read: a name that is no keyword, and a type. -/
theorem read_first {x : String × String} (hs : Scannable x) {source : String} {decls : List Decl}
    (h : Fragment.ofText source (configText x) = .ok (.definitions decls)) :
    TokenKind.ofWord x.1 = .ident ∧ ∃ ks₁ ks₂ type, looks none (scan x.2.toList).1 = ks₁ ++ ks₂ ∧
      (∀ k ∈ ks₁, k.2.2 = false) ∧ (∀ k ∈ ks₂.head?, k.2.2 = true) ∧
      TypeExpr.Spelled (ks₁.map fun k => (k.1, k.2.1)) type := by
  obtain ⟨⟨tokens, stop⟩, hlexed, hlook⟩ :=
    Lexed.ofText_of_cuts source (cuts_config hs.name hs.type)
  obtain ⟨hmodule, hitems⟩ := items_of_definitions hlexed h
  rw [looks_config] at hlook
  simp only [List.cons_append, List.nil_append, List.map_eq_cons_iff, List.map_eq_append_iff]
    at hlook
  obtain ⟨t₁, _, rfl, h₁, t₂, _, rfl, h₂, ms, us, rfl, hms, u₁, us', rfl, k₁, -⟩ := hlook
  obtain ⟨hk₁, -, hs₁⟩ := Token.look_eq h₁
  obtain ⟨hk₂, -, hs₂⟩ := Token.look_eq h₂
  -- the item goes on as far as nothing starts a line
  obtain ⟨rest, more, rfl, hrest, hmore⟩ := exists_item ms
  have hcut : (⟨t₁, t₂ :: rest⟩ : Item).Cut := ⟨hs₁, by simpa using ⟨hs₂, hrest⟩⟩
  have hends : Item.Ends (more ++ u₁ :: us') :=
    hmore.append fun t ht => by cases ht; exact (Token.look_eq k₁).2.2
  have hmem := hcut.mem_split hends []
  simp only [List.nil_append, Item.toks, List.cons_append] at hmem
  rw [List.append_assoc] at hitems
  obtain ⟨hdecl, d, hd⟩ := hitems _ hmem
  -- the item is a declaration, and no import or strict binding begins like this
  have hident : TokenKind.ofWord x.1 = .ident := by
    have hne := hmodule t₁ rfl
    have hbang : TokenKind.ofWord x.1 ≠ .bang := by
      unfold TokenKind.ofWord
      split <;> simp
    unfold Item.isDecl at hdecl
    split at hdecl
    · rename_i hk
      obtain ⟨e, he⟩ := decl_import rest (Item.stop ⟨t₁, t₂ :: rest⟩) hk hk₂
      rw [Item.decl, Item.toks, he] at hd
      cases hd
    · rename_i hk
      exact absurd (hk₁.symm.trans hk) hbang
    · rename_i hk
      exact hk₁.symm.trans hk
    · cases hdecl
  rw [List.map_append] at hms
  refine ⟨hident, rest.map Token.look, more.map Token.look, ?_⟩
  have hpresent : ∀ t ∈ rest, t.kind ≠ .eof := by
    intro t ht
    refine words_present hs.type t.word ?_
    rw [← words_looks none, ← hms]
    exact List.mem_map.mpr ⟨t.look, by simp [ht, List.mem_map_of_mem], rfl⟩
  obtain ⟨type, htype⟩ := spelled_of_decl (hk₁.trans hident) hk₂ hpresent hd
  refine ⟨type, hms.symm, ?_, ?_, ?_⟩
  · intro k hk
    obtain ⟨t, ht, rfl⟩ := List.mem_map.mp hk
    exact hrest t ht
  · intro k hk
    cases more with
    | nil => cases hk
    | cons t ts =>
      cases hk
      exact hmore t rfl
  · rw [← Token.word_look]
    exact htype

/-! ## The prelude -/

theorem CellsLooks.cell {xs : List (String × String)} {ks : List Look} (h : CellsLooks xs ks)
    {x : String × String} (hx : x ∈ xs) : ∃ ks₁ mid ks₂, Bracketed (scan x.2.toList).1 mid ∧
      ks = ks₁ ++ (cellLooks (x.1 ++ "Ref") mid ++ ks₂) := by
  induction h with
  | nil => cases hx
  | @cons y xs mid ks hmid h ih =>
    rcases List.mem_cons.mp hx with rfl | hx
    · exact ⟨[], mid, ks, hmid, rfl⟩
    · obtain ⟨ks₁, mid', ks₂, hmid', rfl⟩ := ih hx
      exact ⟨cellLooks (y.1 ++ "Ref") mid ++ ks₁, mid', ks₂, hmid', by simp⟩

/-- No type that fills its line in the definitions goes on in the prelude. -/
theorem not_broken {cell : String} {mid ks₁ ks₂ : List Look} {k : Look} {toks : List Token}
    {before after : List Look} {type : TypeExpr}
    (htoks : toks.map Token.look = before ++ (cellLooks cell mid ++ after))
    (hmid : mid = ks₁ ++ k :: ks₂) (hks : ∀ k ∈ ks₁, k.2.2 = false) (hk : k.2.2 = true)
    (hs : TypeExpr.Spelled (ks₁.map fun k => (k.1, k.2.1)) type)
    (hok : ∀ i ∈ Item.split toks, ∃ d, i.decl = .ok d) : False := by
  subst hmid
  simp only [cellLooks, List.cons_append, List.nil_append, List.append_assoc,
    List.map_eq_cons_iff, List.map_eq_append_iff] at htoks
  obtain ⟨bs, _, rfl, -, t₁, _, rfl, h₁, t₂, _, rfl, h₂, t₃, _, rfl, h₃, t₄, _, rfl, h₄,
    ns, _, rfl, hns, n, more, rfl, hn, -⟩ := htoks
  obtain ⟨hk₁, -, hs₁⟩ := Token.look_eq h₁
  obtain ⟨hk₂, -, hs₂⟩ := Token.look_eq h₂
  obtain ⟨hk₃, -, hs₃⟩ := Token.look_eq h₃
  obtain ⟨hk₄, -, hs₄⟩ := Token.look_eq h₄
  have hrest : ∀ t ∈ ns, Item.startsItem t = false := by
    intro t ht
    exact hks t.look (hns ▸ List.mem_map_of_mem ht)
  have hcut : (⟨t₁, t₂ :: t₃ :: t₄ :: ns⟩ : Item).Cut :=
    ⟨hs₁, by simpa using ⟨hs₂, hs₃, hs₄, hrest⟩⟩
  have hends : Item.Ends (n :: more) := by
    intro t ht
    cases ht
    rw [← hn] at hk
    exact hk
  have hmem := hcut.mem_split hends bs
  simp only [Item.toks, List.cons_append] at hmem
  obtain ⟨d, hd⟩ := hok _ hmem
  obtain ⟨c, hrun, -⟩ := Reader.runAll_ok.mp hd
  rw [Item.toks, Grammar.run_decl_signature hk₁ hk₂] at hrun
  obtain ⟨type', -, hread⟩ := hs.read ns [] (Item.stop ⟨t₁, t₂ :: t₃ :: t₄ :: ns⟩) []
    (8 * ns.length + 21) (by rw [Token.word_look, hns]) (by simp [Reader.Closes]) (by omega)
  rw [List.append_nil] at hread
  obtain ⟨e, he⟩ := Grammar.run_typeExpr_open hk₃ hk₄ hread
  have hfuel : Grammar.fuel ⟨t₃ :: t₄ :: ns, Item.stop ⟨t₁, t₂ :: t₃ :: t₄ :: ns⟩, []⟩ =
      (8 * ns.length + 21) + 3 := by
    simp only [Grammar.fuel, List.length_cons]
    omega
  rw [hfuel, he] at hrun
  cases hrun

/-- In a prelude that can be read, a name whose definitions can be read is a name and its type is a
type, on its line. -/
theorem declarable_of_config {xs : List (String × String)} (hscan : ∀ x ∈ xs, Scannable x)
    {source : String} {f : Fragment} (hprelude : Fragment.ofText source (preludeText xs) = .ok f)
    {x : String × String} (hx : x ∈ xs) {source' : String} {decls : List Decl}
    (hconfig : Fragment.ofText source' (configText x) = .ok (.definitions decls)) :
    Declarable x ∧ Unbroken x.2 ∧ TokenKind.ofWord x.1 = .ident := by
  obtain ⟨ks, toks, pos, decls, hks, htoks, hitems, -⟩ := read_cells hscan hprelude
  obtain ⟨hident, ks₁, ks₂, type, hlooks, hks₁, hks₂, hspelled⟩ := read_first (hscan x hx) hconfig
  obtain ⟨before, mid, after, hmid, rfl⟩ := hks.cell hx
  cases ks₂ with
  | nil =>
    rw [List.append_nil] at hlooks
    rw [← hlooks, words_looks] at hspelled
    refine ⟨⟨(hscan x hx).name, TypeExpr.Spelled.ofText? (hscan x hx).type hspelled⟩, ?_, hident⟩
    rw [Unbroken, hlooks]
    exact hks₁
  | cons k ks₂ =>
    have hbroken : mid = ks₁ ++ k :: mid.drop (ks₁.length + 1) := by
      rcases hmid with ⟨b, rfl⟩ | rfl <;> simp [hlooks, List.drop_append]
    exact (not_broken htoks hbroken hks₁ (hks₂ k rfl) hspelled (Decl.decl_of_ofItems hitems)).elim

/-- If the prelude and all definitions can be read, the names are names and the types are types, each
on its line. -/
theorem legible {xs : List (String × String)} (hxs : ∀ x ∈ xs, Word x.1.toList) {source : String}
    {f : Fragment} (hprelude : Fragment.ofText source (preludeText xs) = .ok f)
    (hconfig : ∀ x ∈ xs, ∃ source decls,
      Fragment.ofText source (configText x) = .ok (.definitions decls)) :
    ∀ x ∈ xs, Declarable x ∧ Unbroken x.2 ∧ TokenKind.ofWord x.1 = .ident := by
  have hscan : ∀ x ∈ xs, Scannable x := by
    intro x hx
    obtain ⟨_, _, h⟩ := hconfig x hx
    exact scannable_of_config (hxs x hx) h
  intro x hx
  obtain ⟨_, _, h⟩ := hconfig x hx
  exact declarable_of_config hscan hprelude hx h

end Template

end LazySession

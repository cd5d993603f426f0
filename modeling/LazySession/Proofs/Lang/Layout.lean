import LazySession.Lang.Fragment
import LazySession.Proofs.Lang.Scanning

/-!
# How tokens look

Readers care for the class and the text of a token and for whether it starts an item, and hardly
for where it stands. `Lexeme.looks` gives this of all tokens in a row of lexemes. It needs no
position, only the column, and that only while no token has come on the line.
-/

namespace LazySession

/-- The class and the text of a token, and whether it starts an item. -/
abbrev Look := TokenKind × String × Bool

def Token.look (t : Token) : Look := (t.kind, t.text, Item.startsItem t)

theorem Token.look_eq {t : Token} {kind : TokenKind} {text : String} {starts : Bool}
    (h : t.look = (kind, text, starts)) :
    t.kind = kind ∧ t.text = text ∧ Item.startsItem t = starts := by
  simpa [look] using h

/-- The column behind some characters, as long as it is known. -/
def Pos.column (col : Option Int) (cs : List Char) : Option Int :=
  cs.foldl (fun col c => if c = '\n' then some 1 else col.map (· + 1)) col

theorem Pos.column_after (pos : Pos) (fresh : Bool) (cs : List Char) :
    Pos.column (if fresh then some pos.col else none) cs =
      if fresh || cs.contains '\n' then some (pos.after cs).col else none := by
  induction cs generalizing pos fresh with
  | nil => simp [column, after]
  | cons c cs ih =>
    unfold column at ih ⊢
    rw [List.foldl_cons, List.contains_cons]
    by_cases hc : c = '\n'
    · subst hc
      simpa [after, step] using ih ⟨pos.line + 1, 1⟩ true
    · have hstep := ih (pos.step c) fresh
      have hne : ('\n' == c) = false := by simpa using fun h => hc h.symm
      rw [hne, Bool.false_or, if_neg hc]
      cases fresh with
      | true => simpa [after, step, hc] using hstep
      | false => simpa [after] using hstep

namespace Lexeme

/-! ## Tokens among lexemes -/

/-- The tokens among the lexemes, in their order. -/
def place (pos : Pos) (fresh : Bool) : List Lexeme → List Token
  | [] => []
  | l :: ls =>
    let pos' := pos.after l.raw
    match l.token? with
    | some (kind, text) => ⟨kind, text, pos, fresh⟩ :: place pos' false ls
    | none => place pos' (fresh || l.raw.contains '\n') ls

theorem tokensFrom_eq (done : List Token) (pos : Pos) (fresh : Bool) (ls : List Lexeme) :
    tokensFrom done pos fresh ls = done.reverse ++ place pos fresh ls := by
  induction ls generalizing done pos fresh with
  | nil => simp [tokensFrom, place]
  | cons l ls ih =>
    simp only [tokensFrom, place]
    cases l.token? with
    | some k => simp [ih]
    | none => exact ih _ _ _

/-- How the tokens among the lexemes look. -/
def looks (col : Option Int) : List Lexeme → List Look
  | [] => []
  | l :: ls => match l.token? with
    | some (kind, text) => (kind, text, col == some 1) :: looks none ls
    | none => looks (Pos.column col l.raw) ls

/-- The column behind the lexemes, if no token stands before on the line. -/
def columnAfter (col : Option Int) : List Lexeme → Option Int
  | [] => col
  | l :: ls => match l.token? with
    | some _ => columnAfter none ls
    | none => columnAfter (Pos.column col l.raw) ls

theorem look_place (pos : Pos) (fresh : Bool) (ls : List Lexeme) :
    (place pos fresh ls).map Token.look = looks (if fresh then some pos.col else none) ls := by
  induction ls generalizing pos fresh with
  | nil => rfl
  | cons l ls ih =>
    simp only [place, looks]
    split
    · have := ih (pos.after l.raw) false
      cases fresh <;> simp_all [Token.look, Item.startsItem]
    · rw [ih, Pos.column_after]

theorem looks_append (col : Option Int) (ls ls' : List Lexeme) :
    looks col (ls ++ ls') = looks col ls ++ looks (columnAfter col ls) ls' := by
  induction ls generalizing col with
  | nil => rfl
  | cons l ls ih =>
    simp only [List.cons_append, looks, columnAfter]
    cases l.token? with
    | some k => simp [ih]
    | none => exact ih _

@[simp] theorem looks_nil (col : Option Int) : looks col [] = [] := rfl

@[simp] theorem looks_token (col : Option Int) (kind : TokenKind) (raw : List Char)
    (ls : List Lexeme) :
    looks col (token kind raw :: ls) = (kind, String.ofList raw, col == some 1) :: looks none ls :=
  rfl

@[simp] theorem looks_line (col : Option Int) (ls : List Lexeme) :
    looks col (blank ['\n'] :: ls) = looks (some 1) ls := rfl

@[simp] theorem looks_space (ls : List Lexeme) :
    looks none (blank [' '] :: ls) = looks none ls := rfl

/-- The classes and texts of the tokens among the lexemes. -/
def words (ls : List Lexeme) : List (TokenKind × String) := ls.filterMap (·.token?)

theorem words_looks (col : Option Int) (ls : List Lexeme) :
    (looks col ls).map (fun k => (k.1, k.2.1)) = words ls := by
  induction ls generalizing col with
  | nil => rfl
  | cons l ls ih =>
    simp only [looks, words, List.filterMap_cons]
    cases l.token? with
    | none => exact ih _
    | some k => simpa [words] using ih none

theorem mem_words {col : Option Int} {ls : List Lexeme} {k : Look} (h : k ∈ looks col ls) :
    (k.1, k.2.1) ∈ words ls := by
  rw [← words_looks col]
  exact List.mem_map_of_mem h

end Lexeme

theorem Lexed.ofText_of_cuts {text : String} {ls : List Lexeme} (source : String)
    (h : Lexeme.Cuts text.toList ls []) :
    ∃ lexed, Lexed.ofText source text = .ok lexed ∧
      lexed.tokens.map Token.look = Lexeme.looks (some 1) ls := by
  unfold ofText
  rw [h.scan]
  refine ⟨_, rfl, ?_⟩
  simp only [Lexeme.tokens]
  rw [Lexeme.tokensFrom_eq]
  exact Lexeme.look_place .start true ls

/-! ## Items -/

namespace Item

/-- The item is cut off where it is: its first token starts an item and no other does. -/
structure Cut (i : Item) : Prop where
  first : startsItem i.first
  rest : ∀ t ∈ i.rest, startsItem t = false

theorem splitFrom_append (first : Token) (seen : List Token) (done : List Item)
    {ts : List Token} (h : ∀ t ∈ ts, startsItem t = false) (more : List Token) :
    splitFrom first seen done (ts ++ more) = splitFrom first (ts.reverse ++ seen) done more := by
  induction ts generalizing seen with
  | nil => rfl
  | cons t ts ih =>
    rw [List.cons_append, splitFrom, h t List.mem_cons_self]
    simp only [Bool.false_eq_true, if_false]
    rw [ih _ fun u hu => h u (List.mem_cons_of_mem _ hu)]
    simp

theorem splitFrom_done (first : Token) (seen : List Token) (done : List Item) (ts : List Token) :
    splitFrom first seen done ts = done.reverse ++ splitFrom first seen [] ts := by
  induction ts generalizing first seen done with
  | nil => simp [splitFrom]
  | cons t ts ih =>
    simp only [splitFrom]
    split
    · rw [ih, ih _ _ [_]]
      simp
    · exact ih _ _ _

/-- The tokens that follow a cut start an item, if there are any. -/
def Ends (ts : List Token) : Prop := ∀ t ∈ ts.head?, startsItem t

theorem split_cons {first : Token} {rest more : List Token}
    (hr : ∀ t ∈ rest, startsItem t = false) (hm : Ends more) :
    split (first :: rest ++ more) = ⟨first, rest⟩ :: split more := by
  rw [List.cons_append, split, splitFrom_append _ _ _ hr]
  cases more with
  | nil => simp [splitFrom, split]
  | cons t ts =>
    rw [splitFrom, hm t rfl]
    simp only [if_true]
    rw [splitFrom_done]
    simp [split]

theorem ends_flatMap {items : List Item} (h : ∀ i ∈ items, i.Cut) : Ends (items.flatMap toks) := by
  cases items with
  | nil => intro t ht; cases ht
  | cons i items =>
    intro t ht
    simp only [List.flatMap_cons, toks, List.cons_append, List.head?_cons] at ht
    cases ht
    exact (h i List.mem_cons_self).first

theorem split_flatMap {items : List Item} (h : ∀ i ∈ items, i.Cut) :
    split (items.flatMap toks) = items := by
  induction items with
  | nil => rfl
  | cons i items ih =>
    have htail : ∀ j ∈ items, j.Cut := fun j hj => h j (List.mem_cons_of_mem _ hj)
    rw [List.flatMap_cons, toks, split_cons (h i List.mem_cons_self).rest (ends_flatMap htail),
      ih htail]

theorem Cut.mem_splitFrom {i : Item} (hi : i.Cut) {more : List Token} (hm : Ends more)
    (before : List Token) (first : Token) (seen : List Token) (done : List Item) :
    i ∈ splitFrom first seen done (before ++ (i.toks ++ more)) := by
  induction before generalizing first seen done with
  | nil =>
    have hsplit : split (i.first :: i.rest ++ more) = i :: split more := split_cons hi.rest hm
    rw [List.nil_append, toks, List.cons_append, splitFrom, hi.first]
    simp only [if_true]
    rw [splitFrom_done, List.mem_append]
    rw [List.cons_append, split] at hsplit
    rw [hsplit]
    exact .inr List.mem_cons_self
  | cons t before ih =>
    rw [List.cons_append, splitFrom]
    split
    · exact ih _ _ _
    · exact ih _ _ _

theorem Cut.mem_split {i : Item} (hi : i.Cut) {more : List Token} (hm : Ends more)
    (before : List Token) : i ∈ split (before ++ (i.toks ++ more)) := by
  cases before with
  | nil =>
    rw [List.nil_append, toks, split_cons hi.rest hm]
    exact List.mem_cons_self
  | cons t before => exact hi.mem_splitFrom hm before t [] []

theorem Ends.append {ts more : List Token} (ht : Ends ts) (hm : Ends more) : Ends (ts ++ more) := by
  cases ts with
  | nil => exact hm
  | cons t ts => exact ht

end Item

namespace Decl

theorem ofItems_eq {items : List Item} {decls : List Decl} (source : String)
    (h : items.map Item.decl = decls.map .ok) : ofItems source items = .ok decls := by
  unfold ofItems
  rw [h]
  simp only [List.filterMap_map, Function.comp_def, List.isEmpty_iff, List.filterMap_eq_nil_iff, implies_true,
    if_true, List.filterMap_some]

theorem decl_of_ofItems {source : String} {items : List Item} {decls : List Decl}
    (h : ofItems source items = .ok decls) : ∀ i ∈ items, ∃ d, i.decl = .ok d := by
  intro i hi
  unfold ofItems at h
  simp only at h
  split at h
  · rename_i hempty
    cases hd : i.decl with
    | ok d => exact ⟨d, rfl⟩
    | error e =>
      rw [List.isEmpty_iff, List.filterMap_eq_nil_iff] at hempty
      have hnone := hempty i.decl (List.mem_map_of_mem hi)
      rw [hd] at hnone
      cases hnone
  · cases h

end Decl

end LazySession

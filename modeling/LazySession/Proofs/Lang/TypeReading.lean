import LazySession.Proofs.Lang.Declarations
import LazySession.Proofs.Lang.Lexing

/-!
# Printed types are read back

`Reader.Reads r ws N P`: in front of tokens with `N`, the reader `r` takes just the words `ws`, and
what it gives has `P`. `Grammar.reads_typeExpr`: the words of a writable type are read as that type,
but for places.
-/

namespace LazySession

open Token.Word (inParens)

/-! ## Rows of tokens -/

theorem word_eq {t : Token} {kind : TokenKind} {text : String} (h : t.word = (kind, text)) :
    t.kind = kind ∧ t.text = text := by
  simpa [Token.word] using h

section
variable {w : Token.Word} {ws ws' : List Token.Word} {ts : List Token}

theorem Inner.row (h : Inner ws ts) : Row ws ts :=
  ⟨h.words, fun t ht => h.inside t (List.mem_of_mem_tail ht)⟩

theorem Row.cons (h : Row (w :: ws) ts) : ∃ t us, ts = t :: us ∧ t.word = w ∧ Inner ws us := by
  obtain ⟨hw, hi⟩ := h
  cases ts with
  | nil => cases hw
  | cons t us =>
    rw [List.map_cons, List.cons.injEq] at hw
    exact ⟨t, us, rfl, hw.1, hw.2, hi⟩

theorem Row.nil (h : Row [] ts) : ts = [] := List.map_eq_nil_iff.mp h.words

theorem Row.append (h : Row (ws ++ ws') ts) (hne : ws ≠ []) :
    ∃ us us', ts = us ++ us' ∧ Row ws us ∧ Inner ws' us' := by
  obtain ⟨us, us', rfl, hu, hu'⟩ := List.map_eq_append_iff.mp h.words
  cases us with
  | nil => exact absurd hu.symm hne
  | cons u us =>
    have hi : ∀ t ∈ us ++ us', t.startsLine = false := h.inside
    exact ⟨_, _, rfl, ⟨hu, fun t ht => hi t (List.mem_append_left _ ht)⟩, hu',
      fun t ht => hi t (List.mem_append_right _ ht)⟩

theorem Inner.cons (h : Inner (w :: ws) ts) :
    ∃ t us, ts = t :: us ∧ t.word = w ∧ t.startsLine = false ∧ Inner ws us := by
  obtain ⟨t, us, rfl, hw, hi⟩ := h.row.cons
  exact ⟨t, us, rfl, hw, h.inside t List.mem_cons_self, hi⟩

theorem Inner.append (h : Inner (ws ++ ws') ts) :
    ∃ us us', ts = us ++ us' ∧ Inner ws us ∧ Inner ws' us' := by
  obtain ⟨us, us', rfl, hu, hu'⟩ := List.map_eq_append_iff.mp h.words
  exact ⟨us, us', rfl, ⟨hu, fun t ht => h.inside t (List.mem_append_left _ ht)⟩, hu',
    fun t ht => h.inside t (List.mem_append_right _ ht)⟩

theorem Row.parens (h : Row (inParens ws) ts) :
    ∃ l us r, ts = l :: (us ++ [r]) ∧ l.kind = .lparen ∧ r.kind = .rparen ∧ Inner ws us := by
  obtain ⟨l, us, rfl, hl, hus⟩ := h.cons
  obtain ⟨vs, rs, rfl, hvs, hrs⟩ := List.map_eq_append_iff.mp hus.words
  obtain ⟨r, rfl, hr⟩ := List.map_eq_singleton_iff.mp hrs
  exact ⟨l, vs, r, rfl, (word_eq hl).1, (word_eq hr).1, hvs,
    fun t ht => hus.inside t (List.mem_append_left _ ht)⟩

theorem Row.length (h : Row ws ts) : ts.length = ws.length := by
  rw [← h.words, List.length_map]

end

/-! ## Readers that have success -/

namespace Reader

variable {α β : Type}

/-- At the cursor the reader has success, with a value and a cursor that have `Q`. -/
def Yields (r : Reader α) (c : Cursor) (Q : α → Cursor → Prop) : Prop :=
  ∃ a c', r.run c = .ok (a, c') ∧ Q a c'

section
variable {r : Reader α} {f : α → Reader β} {c : Cursor} {Q Q' : α → Cursor → Prop}
variable {R : β → Cursor → Prop}

theorem yields_pure {a : α} (h : Q a c) : (pure a : Reader α).Yields c Q := ⟨a, c, rfl, h⟩

theorem yields_bind (h : r.Yields c fun a c' => (f a).Yields c' R) : (r >>= f).Yields c R := by
  obtain ⟨a, c', hr, b, c'', hf, hR⟩ := h
  refine ⟨b, c'', ?_, hR⟩
  rw [run_bind, hr]
  exact hf

theorem Yields.mono (h : r.Yields c Q) (hQ : ∀ a c', Q a c' → Q' a c') : r.Yields c Q' := by
  obtain ⟨a, c', hr, hq⟩ := h
  exact ⟨a, c', hr, hQ a c' hq⟩

theorem yields_get {f : Cursor → Reader β} (h : (f c).Yields c R) :
    ((get : Reader Cursor) >>= f).Yields c R :=
  yields_bind ⟨c, c, rfl, h⟩

theorem yields_look {f : Token → Reader β} (h : (f c.peek).Yields c R) : (peek >>= f).Yields c R :=
  yields_bind ⟨c.peek, c, rfl, h⟩

section
variable {t : Token} {ts : List Token} {stop : Pos} {layout : List Int}

theorem yields_peek {f : Token → Reader β} (h : (f t).Yields ⟨t :: ts, stop, layout⟩ R) :
    (peek >>= f).Yields ⟨t :: ts, stop, layout⟩ R :=
  yields_bind ⟨t, _, rfl, h⟩

theorem yields_skip {f : Unit → Reader β} (h : (f ()).Yields ⟨ts, stop, layout⟩ R) :
    (skip >>= f).Yields ⟨t :: ts, stop, layout⟩ R :=
  yields_bind ⟨(), _, rfl, h⟩

theorem yields_next {f : Token → Reader β} (h : (f t).Yields ⟨ts, stop, layout⟩ R) :
    (next >>= f).Yields ⟨t :: ts, stop, layout⟩ R :=
  yields_bind ⟨t, _, rfl, h⟩

theorem yields_expect {kind : TokenKind} {what : String} {f : Token → Reader β}
    (hk : t.kind = kind) (h : (f t).Yields ⟨ts, stop, layout⟩ R) :
    (expect kind what >>= f).Yields ⟨t :: ts, stop, layout⟩ R :=
  yields_bind ⟨t, _, Grammar.run_expect (c := ⟨t :: ts, stop, layout⟩) hk what, h⟩

end

theorem yields_withColumn {col : Int}
    (h : r.Yields { c with layout := col :: c.layout } fun a c' =>
      Q a { c' with layout := c'.layout.tail }) : (withColumn col r).Yields c Q := by
  unfold withColumn
  refine yields_bind ⟨(), { c with layout := col :: c.layout }, rfl, yields_bind (h.mono ?_)⟩
  intro a c' hQ
  exact yields_bind ⟨(), { c' with layout := c'.layout.tail }, rfl, yields_pure hQ⟩

end

/-- In front of tokens with `N`, the reader takes the words, and what it gives has `P`. -/
def Reads (r : Reader α) (ws : List Token.Word) (N : List Token → Prop) (P : α → Prop) : Prop :=
  ∀ ts tail stop layout, Row ws ts → N tail → r.Yields ⟨ts ++ tail, stop, layout⟩ fun a c =>
    c = ⟨tail, stop, layout⟩ ∧ P a

end Reader

namespace Grammar

open Reader

/-! ## What may follow -/

/-- Anything may follow. -/
def Anything (_ : List Token) : Prop := True

/-- No further argument follows. -/
def Halts (tail : List Token) : Prop := ∀ t ∈ tail.head?, startsAtom t = false

/-- What follows ends an expression. -/
def Stops (tail : List Token) : Prop :=
  ∀ t ∈ tail.head?, t.kind ∈ [.rparen, .semi, .kwIn, .kwThen, .kwElse]

theorem stops_nil : Stops [] := by
  rintro _ ⟨⟩

theorem Stops.peek {tail : List Token} (h : Stops tail) (stop : Pos) (layout : List Int) :
    (Cursor.peek ⟨tail, stop, layout⟩).kind ≠ .op ∧ startsAtom (Cursor.peek ⟨tail, stop, layout⟩) = false := by
  cases tail with
  | nil => simp [Cursor.peek, Token.eof, startsAtom]
  | cons t tail =>
    have ht := h t rfl
    simp only [List.mem_cons, List.not_mem_nil, or_false] at ht
    rcases ht with ht | ht | ht | ht | ht <;> simp [Cursor.peek, startsAtom, ht]

theorem Stops.halts {tail : List Token} (h : Stops tail) : Halts tail := by
  intro t ht
  have hk := h t ht
  simp only [List.mem_cons, List.not_mem_nil, or_false] at hk
  rcases hk with hk | hk | hk | hk | hk <;> simp [startsAtom, hk]

theorem Halts.peek {tail : List Token} (h : Halts tail) (stop : Pos) (layout : List Int) :
    startsAtom (Cursor.peek ⟨tail, stop, layout⟩) = false := by
  cases tail with
  | nil => simp [Cursor.peek, Token.eof, startsAtom]
  | cons t tail => exact h t rfl

/-! ## Types -/

section
variable {P : TypeExpr → Prop} {ws : List Token.Word} {n : Nat}

/-- The first word of a type. -/
def OpensType (ws : List Token.Word) : Prop :=
  ∃ w ws', ws = w :: ws' ∧ w.1 ∈ [.conid, .ident, .lparen]

theorem opensType_words (t : TypeExpr) : OpensType t.words := by
  cases t <;> exact ⟨_, _, rfl, by simp [Token.Word.lparen]⟩

theorem reads_typeAtom_parens (hw : OpensType ws) (h : (typeExpr n).Reads ws Closes P) :
    (typeAtom (n + 1)).Reads (inParens ws) Anything P := by
  intro ts tail stop layout hts _
  obtain ⟨l, us, r, rfl, hl, hr, hus⟩ := hts.parens
  have hinner := h us (r :: tail) stop layout hus.row (by rintro t ⟨⟩; exact hr)
  obtain ⟨w, ws', rfl, hw⟩ := hw
  obtain ⟨u, us', rfl, hu, -, -⟩ := hus.cons
  have hne : u.kind ≠ .rparen := by
    intro hk
    rw [← hu, Token.word, hk] at hw
    simp at hw
  simp only [List.cons_append, List.append_assoc, List.nil_append] at hinner ⊢
  rw [typeAtom]
  refine yields_next ?_
  simp only [hl]
  refine yields_peek ?_
  rw [if_neg hne]
  refine yields_bind (hinner.mono ?_)
  rintro a c ⟨rfl, ha⟩
  exact yields_expect hr (yields_pure ⟨rfl, ha⟩)

/-- No further argument of a type follows. -/
def HaltsType (tail : List Token) : Prop := ∀ t ∈ tail.head?, startsType t = false

theorem yields_typeArgs_end {tail : List Token} (h : HaltsType tail) (stop : Pos) (layout : List Int)
    (done : List TypeExpr) {Q : List TypeExpr → Cursor → Prop}
    (hQ : Q done.reverse ⟨tail, stop, layout⟩) :
    (typeArgs (n + 1) done).Yields ⟨tail, stop, layout⟩ Q := by
  have hstarts : startsType (Cursor.peek ⟨tail, stop, layout⟩) = false := by
    cases tail with
    | nil => simp [Cursor.peek, Token.eof, startsType]
    | cons t tail => exact h t rfl
  exact ⟨_, _, run_typeArgs_end hstarts done, hQ⟩

end

theorem reads_typeAtom_con (n : Nat) (name : String) :
    (typeAtom (n + 1)).Reads [(.conid, name)] Anything fun t => t.erase = .con .start name := by
  intro ts tail stop layout hts _
  obtain ⟨t, us, rfl, ht, hus⟩ := hts.cons
  obtain rfl := hus.row.nil
  obtain ⟨hk, hx⟩ := word_eq ht
  rw [typeAtom]
  refine yields_next ?_
  simp only [hk]
  exact yields_pure ⟨rfl, by rw [hx]; rfl⟩

theorem reads_typeAtom_var (n : Nat) (name : String) :
    (typeAtom (n + 1)).Reads [(.ident, name)] Anything fun t => t.erase = .var .start name := by
  intro ts tail stop layout hts _
  obtain ⟨t, us, rfl, ht, hus⟩ := hts.cons
  obtain rfl := hus.row.nil
  obtain ⟨hk, hx⟩ := word_eq ht
  rw [typeAtom]
  refine yields_next ?_
  simp only [hk]
  exact yields_pure ⟨rfl, by rw [hx]; rfl⟩

theorem reads_typeAtom_unit (n : Nat) :
    (typeAtom (n + 1)).Reads (inParens []) Anything fun t => t.erase = .unit .start := by
  intro ts tail stop layout hts _
  obtain ⟨l, us, r, rfl, hl, hr, hus⟩ := hts.parens
  obtain rfl := hus.row.nil
  simp only [List.cons_append, List.nil_append]
  rw [typeAtom]
  refine yields_next ?_
  simp only [hl]
  refine yields_peek ?_
  rw [if_pos hr]
  exact yields_skip (yields_pure ⟨rfl, rfl⟩)

/-- What may stand behind an application of types. -/
def arrowBehind (n : Nat) (t : TypeExpr) : Reader TypeExpr := do
  if (← peek).kind = .arrow then
    skip
    return .arrow t (← typeExpr n)
  else return t

/-- A type is an application and what stands behind it. -/
theorem yields_typeExpr (args : List TypeExpr) {n : Nat} {ws ws' : List Token.Word}
    {head : TypeExpr} (hne : ws ≠ [])
    (hhead : (typeAtom n).Reads ws Anything fun t => t.erase = head.erase)
    (hargs : (typeArgs n []).Reads ws' HaltsType fun us =>
      us.map TypeExpr.erase = args.map TypeExpr.erase)
    {ts tail : List Token} {stop : Pos} {layout : List Int} (hts : Row (ws ++ ws') ts)
    (ht : HaltsType tail) {R : TypeExpr → Cursor → Prop}
    (hbehind : ∀ t, t.erase = (if args.isEmpty then head else .app head args).erase →
      (arrowBehind n t).Yields ⟨tail, stop, layout⟩ R) :
    (typeExpr (n + 1)).Yields ⟨ts ++ tail, stop, layout⟩ R := by
  obtain ⟨us, us', rfl, hus, hus'⟩ := hts.append hne
  rw [typeExpr, List.append_assoc]
  refine yields_bind ((hhead us (us' ++ tail) stop layout hus trivial).mono ?_)
  rintro h c ⟨rfl, hh⟩
  refine yields_bind ((hargs us' tail stop layout hus'.row ht).mono ?_)
  rintro as c ⟨rfl, ha⟩
  refine hbehind _ ?_
  have hempty : as.isEmpty = args.isEmpty := by
    cases as <;> cases args <;> simp_all
  rw [hempty]
  split
  · exact hh
  · simp only [TypeExpr.erase, TypeExpr.eraseAll_eq, hh, ha]

theorem reads_typeExpr_plain (args : List TypeExpr) {n : Nat} {ws ws' : List Token.Word}
    {head : TypeExpr} (hne : ws ≠ [])
    (hhead : (typeAtom n).Reads ws Anything fun t => t.erase = head.erase)
    (hargs : (typeArgs n []).Reads ws' HaltsType fun us =>
      us.map TypeExpr.erase = args.map TypeExpr.erase) :
    (typeExpr (n + 1)).Reads (ws ++ ws') Closes fun t =>
      t.erase = (if args.isEmpty then head else .app head args).erase := by
  intro ts tail stop layout hts htail
  have hpeek : (Cursor.peek ⟨tail, stop, layout⟩).kind ≠ .arrow ∧ HaltsType tail := by
    cases tail with
    | nil => exact ⟨by simp [Cursor.peek, Token.eof], nofun⟩
    | cons t tail =>
      have hk := htail t rfl
      exact ⟨by simp [Cursor.peek, hk], by rintro u ⟨⟩; simp [startsType, hk]⟩
  refine yields_typeExpr args hne hhead hargs hts hpeek.2 fun t ht => ?_
  refine yields_look ?_
  rw [if_neg hpeek.1]
  exact yields_pure ⟨rfl, ht⟩

theorem reads_typeArgs_nil (n : Nat) (done : List TypeExpr) :
    (typeArgs (n + 1) done).Reads [] HaltsType fun us =>
      us.map TypeExpr.erase = done.reverse.map TypeExpr.erase := by
  intro ts tail stop layout hts ht
  obtain rfl := hts.nil
  exact yields_typeArgs_end ht stop layout done ⟨rfl, rfl⟩

theorem reads_typeExpr_atom {n : Nat} {ws : List Token.Word} {t : TypeExpr} (hne : ws ≠ [])
    (h : (typeAtom (n + 1)).Reads ws Anything fun t' => t'.erase = t.erase) :
    (typeExpr (n + 2)).Reads ws Closes fun t' => t'.erase = t.erase := by
  have hplain := reads_typeExpr_plain [] hne h (reads_typeArgs_nil n [])
  rw [List.append_nil] at hplain
  exact hplain

theorem length_inParens (ws : List Token.Word) : (inParens ws).length = ws.length + 2 := by
  simp [inParens]

mutual

theorem reads_typeExpr : ∀ (t : TypeExpr), t.Writable → ∀ n, 8 * t.words.length ≤ n →
    (typeExpr n).Reads t.words Closes fun t' => t'.erase = t.erase
  | .con p name, _, n, hn => by
    obtain ⟨m, rfl⟩ : ∃ m, n = m + 2 := ⟨n - 2, by simp [TypeExpr.words] at hn; omega⟩
    exact reads_typeExpr_atom (t := .con p name) (by simp [TypeExpr.words])
      (reads_typeAtom_con m name)
  | .var p name, _, n, hn => by
    obtain ⟨m, rfl⟩ : ∃ m, n = m + 2 := ⟨n - 2, by simp [TypeExpr.words] at hn; omega⟩
    exact reads_typeExpr_atom (t := .var p name) (by simp [TypeExpr.words])
      (reads_typeAtom_var m name)
  | .unit p, _, n, hn => by
    obtain ⟨m, rfl⟩ : ∃ m, n = m + 2 := ⟨n - 2, by simp [TypeExpr.words, length_inParens] at hn; omega⟩
    exact reads_typeExpr_atom (t := .unit p) (by simp [TypeExpr.words, inParens])
      (reads_typeAtom_unit m)
  | .app head args, ⟨hh, hne, ha⟩, n, hn => by
    simp only [TypeExpr.words, List.length_append, length_inParens] at hn
    obtain ⟨m, rfl⟩ : ∃ m, n = m + 2 := ⟨n - 2, by omega⟩
    have hhead := reads_typeAtom_parens (opensType_words head) (reads_typeExpr head hh m (by omega))
    have hargs := reads_typeArgs args ha (m + 1) [] (by omega)
    have hplain := reads_typeExpr_plain args (by simp [inParens]) hhead hargs
    have hempty : args.isEmpty = false := by simpa using hne
    rw [hempty] at hplain
    exact hplain
  | .arrow dom cod, ⟨hd, hc⟩, n, hn => by
    simp only [TypeExpr.words, List.length_append, List.length_cons, length_inParens] at hn
    obtain ⟨m, rfl⟩ : ∃ m, n = m + 4 := ⟨n - 4, by omega⟩
    have hdom := reads_typeAtom_parens (opensType_words dom)
      (reads_typeExpr dom hd (m + 2) (by omega))
    have hcod := reads_typeExpr_atom (t := cod) (by simp [inParens])
      (reads_typeAtom_parens (opensType_words cod) (reads_typeExpr cod hc (m + 1) (by omega)))
    intro ts tail stop layout hts ht
    obtain ⟨ts₁, ts₂, rfl, h₁, h₂⟩ := hts.append (by simp [inParens])
    obtain ⟨a, ts₃, rfl, hk, -, h₃⟩ := h₂.cons
    have hk := (word_eq hk).1
    rw [List.append_assoc, List.cons_append]
    refine yields_typeExpr [] (by simp [inParens]) hdom (reads_typeArgs_nil (m + 2) [])
      (by simpa using h₁) (by rintro u ⟨⟩; simp [startsType, hk]) fun t hdom' => ?_
    refine yields_peek ?_
    rw [if_pos hk]
    refine yields_skip (yields_bind ((hcod ts₃ tail stop layout h₃.row ht).mono ?_))
    rintro u c ⟨rfl, hcod'⟩
    have hdom' : t.erase = dom.erase := hdom'
    exact yields_pure ⟨rfl, by simp only [TypeExpr.erase, hdom', hcod']⟩

theorem reads_typeArgs : ∀ (us : List TypeExpr), TypeExpr.AllWritable us →
    ∀ n done, 8 * (TypeExpr.wordsAll us).length < n →
    (typeArgs n done).Reads (TypeExpr.wordsAll us) HaltsType fun vs =>
      vs.map TypeExpr.erase = done.reverse.map TypeExpr.erase ++ us.map TypeExpr.erase
  | [], _, n, done, hn => by
    obtain ⟨m, rfl⟩ : ∃ m, n = m + 1 := ⟨n - 1, by omega⟩
    simpa [TypeExpr.wordsAll] using reads_typeArgs_nil m done
  | u :: us, ⟨hu, hus⟩, n, done, hn => by
    simp only [TypeExpr.wordsAll, List.length_append, length_inParens] at hn
    obtain ⟨m, rfl⟩ : ∃ m, n = m + 2 := ⟨n - 2, by omega⟩
    have hatom := reads_typeAtom_parens (opensType_words u) (reads_typeExpr u hu m (by omega))
    intro ts tail stop layout hts ht
    obtain ⟨ts₁, ts₂, rfl, h₁, h₂⟩ := hts.append (by simp [inParens])
    have hstarts : startsType (Cursor.peek ⟨ts₁ ++ ts₂ ++ tail, stop, layout⟩) := by
      obtain ⟨l, _, _, rfl, hl, -⟩ := h₁.parens
      simp [Cursor.peek, startsType, hl]
    rw [typeArgs]
    refine yields_look ?_
    rw [if_pos hstarts, List.append_assoc]
    refine yields_bind ((hatom ts₁ (ts₂ ++ tail) stop layout h₁ trivial).mono ?_)
    rintro v c ⟨rfl, hv⟩
    refine (reads_typeArgs us hus (m + 1) (v :: done) (by omega) ts₂ tail stop layout h₂.row ht).mono ?_
    rintro vs c ⟨rfl, hvs⟩
    exact ⟨rfl, hvs.trans (by simp [hv])⟩

end

end Grammar

end LazySession

import LazySession.Check.Types
import LazySession.Proofs.Lang.Layout
import LazySession.Proofs.Lang.Reader

/-!
# Reading types elsewhere

A type that can be read alone can be read wherever its tokens stand, at the end of the input or in
front of a closing parenthesis. It is the same type but for the places in it.
-/

namespace LazySession

/-! ## Types without their places -/

namespace TypeExpr

mutual

/-- The type with one place for all. -/
def erase : TypeExpr → TypeExpr
  | con _ name => .con .start name
  | var _ name => .var .start name
  | unit _ => .unit .start
  | app head args => .app head.erase (eraseAll args)
  | arrow dom cod => .arrow dom.erase cod.erase

def eraseAll : List TypeExpr → List TypeExpr
  | [] => []
  | t :: ts => t.erase :: eraseAll ts

end

theorem eraseAll_eq (ts : List TypeExpr) : eraseAll ts = ts.map erase := by
  induction ts with
  | nil => rfl
  | cons t ts ih => simp [eraseAll, ih]

@[simp] theorem base?_erase (t : TypeExpr) : t.erase.base? = t.base? := by
  cases t <;> simp [erase, base?]

theorem checkCon_eq_nil (p q : Pos) (name : String) (args : Nat) :
    checkCon p name args = [] ↔ checkCon q name args = [] := by
  unfold checkCon
  cases arity? name with
  | none => simp
  | some n => by_cases h : n = args <;> simp [h]

mutual

theorem check_erase : ∀ t : TypeExpr, t.erase.check = [] ↔ t.check = []
  | con p name => by
    simp only [erase, check]
    exact checkCon_eq_nil _ _ _ _
  | var _ _ | unit _ => by simp [erase, check]
  | app head args => by
    have hargs := checkAll_erase args
    have hlength : (eraseAll args).length = args.length := by simp [eraseAll_eq]
    cases head with
    | con p name =>
      simp only [erase, check, List.append_eq_nil_iff, hargs, hlength]
      rw [checkCon_eq_nil .start p]
    | _ => simp [erase, check]
  | arrow dom cod => by
    simp [erase, check, check_erase dom, check_erase cod]

theorem checkAll_erase : ∀ ts : List TypeExpr, checkAll (eraseAll ts) = [] ↔ checkAll ts = []
  | [] => by simp [eraseAll, checkAll]
  | t :: ts => by simp [eraseAll, checkAll, check_erase t, checkAll_erase ts]

end

/-- Types that differ in their places only. -/
def Alike (t u : TypeExpr) : Prop := t.erase = u.erase

theorem Alike.base? {t u : TypeExpr} (h : Alike t u) : t.base? = u.base? := by
  rw [← base?_erase t, h, base?_erase]

theorem Alike.check {t u : TypeExpr} (h : Alike t u) : t.check = [] ↔ u.check = [] := by
  rw [← check_erase t, h, check_erase]

end TypeExpr

def Token.word (t : Token) : TokenKind × String := (t.kind, t.text)

/-! ## Readers that follow each other -/

namespace Reader

/-- The second cursor has the same tokens as the first, elsewhere, and `tail` behind them. -/
def Ahead (tail : List Token) (c c' : Cursor) : Prop :=
  ∃ us, c'.toks = us ++ tail ∧ us.map Token.word = c.toks.map Token.word

/-- Behind the tokens there is nothing, or a closing parenthesis. -/
def Closes (tail : List Token) : Prop := ∀ t ∈ tail.head?, t.kind = .rparen

section
variable {tail : List Token} {c c' : Cursor}

theorem Ahead.advance (h : Ahead tail c c') (hne : c.toks ≠ []) :
    Ahead tail c.advance c'.advance := by
  obtain ⟨us, hu, hw⟩ := h
  cases us with
  | nil => exact absurd (List.map_eq_nil_iff.mp hw.symm) hne
  | cons u us =>
    refine ⟨us, by simp [Cursor.advance, hu], ?_⟩
    rw [Cursor.advance, List.map_tail, ← hw]
    simp

theorem Ahead.peek (h : Ahead tail c c') (hne : c.toks ≠ []) : c'.peek.word = c.peek.word := by
  obtain ⟨us, hu, hw⟩ := h
  cases htoks : c.toks with
  | nil => exact absurd htoks hne
  | cons t ts =>
    rw [htoks] at hw
    cases us with
    | nil => cases hw
    | cons u us =>
      simp only [List.map_cons, List.cons.injEq] at hw
      simpa [Cursor.peek, hu, htoks] using hw.1

theorem Ahead.peek_end (h : Ahead tail c c') (ht : Closes tail) (he : c.toks = []) :
    c'.peek.kind = .eof ∨ c'.peek.kind = .rparen := by
  obtain ⟨us, hu, hw⟩ := h
  rw [he] at hw
  obtain rfl : us = [] := by simpa using hw
  rw [List.nil_append] at hu
  unfold Cursor.peek
  rw [hu]
  cases tail with
  | nil => exact .inl rfl
  | cons t ts => exact .inr (ht t rfl)

theorem peek_nil (he : c.toks = []) : c.peek.kind = .eof := by
  simp [Cursor.peek, he, Token.eof]

end

/-- What the first reader does at one cursor, the second does at the other. -/
def FollowsAt {α : Type} (tail : List Token) (R : α → α → Prop) (r r' : Reader α)
    (c c' : Cursor) : Prop :=
  ∀ a d, r.run c = .ok (a, d) → ∃ a' d', r'.run c' = .ok (a', d') ∧ R a a' ∧ Ahead tail d d' ∧
    d'.stop = c'.stop ∧ d'.layout = c'.layout

/-- What the first reader does on some tokens, the second does on the same tokens in front of
`tail`. -/
def Follows {α : Type} (tail : List Token) (R : α → α → Prop) (r r' : Reader α) : Prop :=
  ∀ c c', Ahead tail c c' → FollowsAt tail R r r' c c'

section
variable {α β : Type} {tail : List Token} {R : α → α → Prop} {S : β → β → Prop} {c c' : Cursor}

theorem follows_pure {a a' : α} (h : R a a') : Follows tail R (pure a) (pure a') := by
  intro c c' hc b d hr
  cases hr
  exact ⟨a', c', rfl, h, hc, rfl, rfl⟩

theorem followsAt_bind {r r' : Reader α} {f f' : α → Reader β} (hr : FollowsAt tail R r r' c c')
    (hf : ∀ a a', R a a' → Follows tail S (f a) (f' a')) :
    FollowsAt tail S (r >>= f) (r' >>= f') c c' := by
  intro b d h
  obtain ⟨a, c₁, ha, hb⟩ := bind_ok h
  obtain ⟨a', c₁', ha', hR, hc₁, hs₁, hl₁⟩ := hr a c₁ ha
  obtain ⟨b', d', hb', hS, hd, hs, hl⟩ := hf a a' hR c₁ c₁' hc₁ b d hb
  refine ⟨b', d', ?_, hS, hd, hs.trans hs₁, hl.trans hl₁⟩
  rw [run_bind, ha']
  exact hb'

theorem follows_bind {r r' : Reader α} {f f' : α → Reader β} (hr : Follows tail R r r')
    (hf : ∀ a a', R a a' → Follows tail S (f a) (f' a')) :
    Follows tail S (r >>= f) (r' >>= f') :=
  fun c c' hc => followsAt_bind (hr c c' hc) hf

theorem followsAt_skip (hc : Ahead tail c c') (hne : c.toks ≠ []) :
    FollowsAt tail (fun _ _ => True) skip skip c c' := by
  intro a d h
  cases h
  exact ⟨(), c'.advance, rfl, trivial, hc.advance hne, rfl, rfl⟩

theorem followsAt_next (hc : Ahead tail c c') (hne : c.toks ≠ []) :
    FollowsAt tail (fun t t' => t'.word = t.word) next next c c' := by
  intro a d h
  cases h
  exact ⟨c'.peek, c'.advance, rfl, hc.peek hne, hc.advance hne, rfl, rfl⟩

/-- Looking at the next token goes on with the same token, or the first reader is at its end. -/
theorem follows_peek {f f' : Token → Reader β}
    (hsame : ∀ c c', Ahead tail c c' → c.toks ≠ [] → c'.peek.word = c.peek.word →
      FollowsAt tail S (f c.peek) (f' c'.peek) c c')
    (hend : ∀ c c', Ahead tail c c' → c.toks = [] → FollowsAt tail S (f c.peek) (f' c'.peek) c c') :
    Follows tail S (peek >>= f) (peek >>= f') := by
  intro c c' hc b d h
  by_cases he : c.toks = []
  · exact hend c c' hc he b d h
  · exact hsame c c' hc he (hc.peek he) b d h

theorem follows_expect (kind : TokenKind) (what : String) (hk : kind ≠ .eof) :
    Follows tail (fun _ _ => True) (expect kind what) (expect kind what) := by
  refine follows_peek (fun c c' hc hne hw => ?_) fun c c' hc he => ?_
  · have hkind : c'.peek.kind = c.peek.kind := congrArg Prod.fst hw
    rw [hkind]
    split
    · intro a d h
      obtain ⟨a', d', h', _, hrest⟩ := followsAt_next hc hne a d h
      exact ⟨a', d', h', trivial, hrest⟩
    · intro a d h
      cases h
  · rw [if_neg (by rw [peek_nil he]; exact hk.symm)]
    intro a d h
    cases h

end

end Reader

/-! ## The grammar of types -/

namespace Grammar

open Reader TypeExpr

theorem exhausted_fails {α : Type} (c : Cursor) {a : α} {d : Cursor} :
    exhausted.run c ≠ .ok (a, d) := by
  intro h
  cases h

theorem typeAtom_nil {c d : Cursor} {t : TypeExpr} (he : c.toks = []) (n : Nat) :
    (typeAtom n).run c ≠ .ok (t, d) := by
  intro h
  cases n with
  | zero => exact exhausted_fails c h
  | succ n =>
    rw [typeAtom] at h
    obtain ⟨u, c₁, hu, h⟩ := bind_ok h
    cases hu
    rw [peek_nil he] at h
    cases h

theorem typeExpr_nil {c d : Cursor} {t : TypeExpr} (he : c.toks = []) (n : Nat) :
    (typeExpr n).run c ≠ .ok (t, d) := by
  intro h
  cases n with
  | zero => exact exhausted_fails c h
  | succ n =>
    rw [typeExpr] at h
    obtain ⟨u, c₁, hu, _⟩ := bind_ok h
    exact typeAtom_nil he n hu

def AllAlike (ts us : List TypeExpr) : Prop := ts.map erase = us.map erase

theorem AllAlike.isEmpty {ts us : List TypeExpr} (h : AllAlike ts us) :
    ts.isEmpty = us.isEmpty := by
  cases ts <;> cases us <;> simp_all [AllAlike]

variable {tail : List Token}

theorem follows_typeAtom {n m : Nat}
    (ih : Follows tail Alike (typeExpr n) (typeExpr m)) :
    Follows tail Alike (typeAtom (n + 1)) (typeAtom (m + 1)) := by
  intro c c' hc
  by_cases he : c.toks = []
  · intro a d h
    exact absurd h (typeAtom_nil he _)
  rw [typeAtom, typeAtom]
  refine followsAt_bind (followsAt_next hc he) fun t t' hw => ?_
  have hkind : t'.kind = t.kind := congrArg Prod.fst hw
  have htext : t'.text = t.text := congrArg Prod.snd hw
  rw [hkind]
  split
  · exact follows_pure (by simp [Alike, erase, htext])
  · exact follows_pure (by simp [Alike, erase, htext])
  · refine follows_peek (fun c c' hc hne hw => ?_) fun c c' hc he => ?_
    · have hkind : c'.peek.kind = c.peek.kind := congrArg Prod.fst hw
      rw [hkind]
      split
      · refine followsAt_bind (followsAt_skip hc hne) fun _ _ _ => follows_pure ?_
        simp [Alike, erase]
      · refine followsAt_bind (ih c c' hc) fun a a' ha => ?_
        exact follows_bind (follows_expect _ _ (by simp)) fun _ _ _ => follows_pure ha
    · rw [if_neg (by rw [peek_nil he]; simp)]
      intro a d h
      obtain ⟨_, _, ha, _⟩ := bind_ok h
      exact absurd ha (typeExpr_nil he _)
  · intro c c' _ a d h
    cases h

theorem follows_typeArgs (ht : Closes tail) {n m : Nat}
    (ihAtom : Follows tail Alike (typeAtom n) (typeAtom m))
    (ihArgs : ∀ ts us, AllAlike ts us → Follows tail AllAlike (typeArgs n ts) (typeArgs m us))
    {ts us : List TypeExpr} (h : AllAlike ts us) :
    Follows tail AllAlike (typeArgs (n + 1) ts) (typeArgs (m + 1) us) := by
  have hdone : AllAlike ts.reverse us.reverse := by
    unfold AllAlike at h ⊢
    rw [List.map_reverse, h, List.map_reverse]
  rw [typeArgs, typeArgs]
  refine follows_peek (fun c c' hc hne hw => ?_) fun c c' hc he => ?_
  · have hstarts : startsType c'.peek = startsType c.peek := by
      simp only [startsType, show c'.peek.kind = c.peek.kind from congrArg Prod.fst hw]
    rw [hstarts]
    split
    · refine followsAt_bind (ihAtom c c' hc) fun a a' ha => ihArgs _ _ ?_
      simp only [AllAlike, List.map_cons, List.cons.injEq]
      exact ⟨ha, h⟩
    · exact follows_pure hdone c c' hc
  · have hstarts : startsType c'.peek = false := by
      rcases hc.peek_end ht he with hk | hk <;> simp [startsType, hk]
    rw [hstarts, if_neg (by simp [startsType, peek_nil he])]
    exact follows_pure hdone c c' hc

theorem follows_typeExpr_succ (ht : Closes tail) {n m : Nat}
    (ihAtom : Follows tail Alike (typeAtom n) (typeAtom m))
    (ihArgs : ∀ ts us, AllAlike ts us → Follows tail AllAlike (typeArgs n ts) (typeArgs m us))
    (ihExpr : Follows tail Alike (typeExpr n) (typeExpr m)) :
    Follows tail Alike (typeExpr (n + 1)) (typeExpr (m + 1)) := by
  rw [typeExpr, typeExpr]
  refine follows_bind ihAtom fun head head' hhead => ?_
  refine follows_bind (ihArgs [] [] rfl) fun args args' hargs => ?_
  have halike : Alike (if args.isEmpty then head else .app head args)
      (if args'.isEmpty then head' else .app head' args') := by
    rw [hargs.isEmpty]
    split
    · exact hhead
    · simp only [Alike, erase, eraseAll_eq]
      rw [hhead, hargs]
  refine follows_peek (fun c c' hc hne hw => ?_) fun c c' hc he => ?_
  · have hkind : c'.peek.kind = c.peek.kind := congrArg Prod.fst hw
    rw [hkind]
    split
    · refine followsAt_bind (followsAt_skip hc hne) fun _ _ _ => ?_
      refine follows_bind ihExpr fun cod cod' hcod => follows_pure ?_
      simp only [Alike, erase]
      rw [halike, hcod]
    · exact follows_pure halike c c' hc
  · have hk : c'.peek.kind ≠ .arrow := by
      rcases hc.peek_end ht he with hk | hk <;> simp [hk]
    rw [if_neg hk, if_neg (by simp [peek_nil he])]
    exact follows_pure halike c c' hc

/-- A type can be read elsewhere, also with more fuel. -/
theorem follows_types (ht : Closes tail) : ∀ {n m : Nat}, n ≤ m →
    Follows tail Alike (typeExpr n) (typeExpr m) ∧
    (∀ ts us, AllAlike ts us → Follows tail AllAlike (typeArgs n ts) (typeArgs m us)) ∧
    Follows tail Alike (typeAtom n) (typeAtom m) := by
  intro n
  induction n with
  | zero =>
    intro m _
    refine ⟨fun c c' _ a d h => ?_, fun _ _ _ c c' _ a d h => ?_, fun c c' _ a d h => ?_⟩
    all_goals exact absurd h (exhausted_fails c)
  | succ n ih =>
    intro m hm
    cases m with
    | zero => omega
    | succ m =>
      obtain ⟨hexpr, hargs, hatom⟩ := ih (Nat.le_of_succ_le_succ hm)
      exact ⟨follows_typeExpr_succ ht hatom hargs hexpr,
        fun _ _ h => follows_typeArgs ht hatom hargs h, follows_typeAtom hexpr⟩

end Grammar

/-! ## The tokens of a type -/

/-- The classes of tokens that types are made of. -/
def TokenKind.inType : TokenKind → Bool
  | conid | ident | lparen | rparen | arrow => true
  | _ => false

namespace Reader

/-- The reader takes only tokens of types at this cursor. -/
def TakesAt {α : Type} (r : Reader α) (c : Cursor) : Prop :=
  ∀ a d, r.run c = .ok (a, d) → ∃ us, c.toks = us ++ d.toks ∧ ∀ t ∈ us, t.kind.inType

def Takes {α : Type} (r : Reader α) : Prop := ∀ c, TakesAt r c

section
variable {α β : Type} {c : Cursor}

theorem takes_pure (a : α) : Takes (pure a) := by
  intro c b d h
  cases h
  exact ⟨[], rfl, by simp⟩

theorem takesAt_bind {r : Reader α} {f : α → Reader β} (hr : TakesAt r c) (hf : ∀ a, Takes (f a)) :
    TakesAt (r >>= f) c := by
  intro b d h
  obtain ⟨a, c₁, ha, hb⟩ := bind_ok h
  obtain ⟨us, hus, hu⟩ := hr a c₁ ha
  obtain ⟨vs, hvs, hv⟩ := hf a c₁ b d hb
  refine ⟨us ++ vs, by rw [hus, hvs, List.append_assoc], fun t ht => ?_⟩
  rcases List.mem_append.mp ht with ht | ht
  · exact hu t ht
  · exact hv t ht

theorem takes_bind {r : Reader α} {f : α → Reader β} (hr : Takes r) (hf : ∀ a, Takes (f a)) :
    Takes (r >>= f) :=
  fun c => takesAt_bind (hr c) hf

theorem toks_eq_advance (h : c.peek.kind ≠ .eof) : c.toks = [c.peek] ++ c.advance.toks := by
  unfold Cursor.peek Cursor.advance at *
  cases htoks : c.toks with
  | nil => simp [htoks, Token.eof] at h
  | cons t ts => rfl

theorem takesAt_skip (h : c.peek.kind.inType) : TakesAt skip c := by
  intro a d hr
  cases hr
  refine ⟨[c.peek], toks_eq_advance ?_, by simpa using h⟩
  intro he
  rw [he] at h
  cases h

theorem takesAt_next (h : c.peek.kind.inType) : TakesAt next c := by
  intro a d hr
  cases hr
  exact takesAt_skip h () _ rfl

theorem takes_peek {f : Token → Reader β} (h : ∀ c, TakesAt (f c.peek) c) : Takes (peek >>= f) :=
  fun c b d hr => h c b d hr

theorem takes_expect {kind : TokenKind} (hk : kind.inType) (what : String) :
    Takes (expect kind what) := by
  refine takes_peek fun c => ?_
  split
  · rename_i h
    exact takesAt_next (by rw [h]; exact hk)
  · intro a d hr
    cases hr

end

end Reader

namespace Grammar

open Reader

theorem takes_types (n : Nat) :
    Takes (typeExpr n) ∧ (∀ ts, Takes (typeArgs n ts)) ∧ Takes (typeAtom n) := by
  induction n with
  | zero =>
    refine ⟨fun c a d h => ?_, fun _ c a d h => ?_, fun c a d h => ?_⟩
    all_goals exact absurd h (exhausted_fails c)
  | succ n ih =>
    obtain ⟨hexpr, hargs, hatom⟩ := ih
    refine ⟨?_, fun ts => ?_, ?_⟩
    · rw [typeExpr]
      refine takes_bind hatom fun head => takes_bind (hargs []) fun args => takes_peek fun c => ?_
      split
      · rename_i h
        refine takesAt_bind (takesAt_skip (by rw [h]; rfl)) fun _ => ?_
        exact takes_bind hexpr fun cod => takes_pure _
      · exact takes_pure _ c
    · rw [typeArgs]
      refine takes_peek fun c => ?_
      split
      · exact takesAt_bind (hatom c) fun t => hargs (t :: ts)
      · exact takes_pure _ c
    · intro c
      rw [typeAtom]
      by_cases hk : c.peek.kind.inType
      · refine takesAt_bind (takesAt_next hk) fun t => ?_
        split
        · exact takes_pure _
        · exact takes_pure _
        · refine takes_peek fun c => ?_
          split
          · rename_i h
            exact takesAt_bind (takesAt_skip (by rw [h]; rfl)) fun _ => takes_pure _
          · refine takesAt_bind (hexpr c) fun t => ?_
            exact takes_bind (takes_expect rfl _) fun _ => takes_pure _
        · intro c a d h
          cases h
      · intro a d h
        obtain ⟨t, c₁, ht, h⟩ := bind_ok h
        cases ht
        split at h
        all_goals first
          | (rename_i hkind; rw [hkind] at hk; exact absurd rfl hk)
          | cases h

end Grammar

/-! ## Types as texts -/

/-- A type, with enough fuel. -/
def Grammar.type : Reader TypeExpr := do typeExpr (fuel (← get))

theorem Grammar.run_type (c : Cursor) : type.run c = (typeExpr (fuel c)).run c := by
  rw [type, Reader.run_bind, Reader.run_get]

/-- The type that a text is, if it is one. -/
def TypeExpr.ofText? (text : String) : Option TypeExpr :=
  match Lexed.ofText "" text with
  | .error _ => none
  | .ok lexed => (Grammar.type.runAll lexed.tokens lexed.stop).toOption

/-- The words are those of a type: the type can be read wherever tokens with these words stand. -/
structure TypeExpr.Spelled (ws : List (TokenKind × String)) (type : TypeExpr) : Prop where
  inType : ∀ w ∈ ws, w.1.inType
  read : ∀ toks tail stop layout n, toks.map Token.word = ws → Reader.Closes tail →
    8 * (toks.length + 1) ≤ n → ∃ type', type.Alike type' ∧
      (Grammar.typeExpr n).run ⟨toks ++ tail, stop, layout⟩ = .ok (type', ⟨tail, stop, layout⟩)

theorem Lexeme.words_present {cs rest : List Char} {ls : List Lexeme} (h : Cuts cs ls rest) :
    ∀ w ∈ words ls, w.1 ≠ .eof := by
  intro w hw
  obtain ⟨l, hl, hk⟩ := List.mem_filterMap.mp hw
  exact h.present l hl w hk

theorem Token.word_look (toks : List Token) :
    toks.map Token.word = (toks.map Token.look).map fun k => (k.1, k.2.1) := by
  simp [Token.word, Token.look]

theorem TypeExpr.spelled_of_runAll {toks : List Token} {stop : Pos} {type : TypeExpr}
    (hp : ∀ t ∈ toks, t.kind ≠ .eof) (h : Grammar.type.runAll toks stop = .ok type) :
    Spelled (toks.map Token.word) type := by
  obtain ⟨c, hrun, hend⟩ := Reader.runAll_ok.mp h
  rw [Grammar.run_type] at hrun
  -- all of its tokens have been taken
  obtain ⟨us, hus, hin⟩ := (Grammar.takes_types _).1 _ _ _ hrun
  simp only at hus
  have hnil : c.toks = [] := by
    cases htoks : c.toks with
    | nil => rfl
    | cons t ts =>
      have hk : t.kind = .eof := by simpa [Cursor.peek, htoks] using hend
      exact absurd hk (hp t (by rw [hus, htoks]; simp))
  rw [hnil, List.append_nil] at hus
  refine ⟨fun w hw => ?_, fun toks' tail stop' layout n htoks htail hn => ?_⟩
  · obtain ⟨t, ht, rfl⟩ := List.mem_map.mp hw
    exact hin t (hus ▸ ht)
  · have hlength : toks'.length = toks.length := by simpa using congrArg List.length htoks
    have hfuel : Grammar.fuel ⟨toks, stop, []⟩ ≤ n := by simpa [Grammar.fuel, ← hlength] using hn
    obtain ⟨type', d, hd, halike, ⟨vs, hvs, hvw⟩, hstop, hlayout⟩ :=
      (Grammar.follows_types htail hfuel).1 _ ⟨toks' ++ tail, stop', layout⟩
        ⟨toks', rfl, htoks⟩ _ _ hrun
    refine ⟨type', halike, ?_⟩
    rw [hd]
    rw [hnil] at hvw
    obtain rfl : vs = [] := by simpa using hvw
    obtain ⟨dtoks, dstop, dlayout⟩ := d
    simp_all

theorem TypeExpr.spelled_of_ofText? {text : String} {type : TypeExpr}
    (h : ofText? text = some type) :
    Lexeme.Cuts text.toList (Lexeme.scan text.toList).1 [] ∧
      Spelled (Lexeme.words (Lexeme.scan text.toList).1) type := by
  -- the text has been scanned to its end
  obtain ⟨ls, hcuts⟩ : ∃ ls, Lexeme.Cuts text.toList ls [] := by
    unfold ofText? Lexed.ofText at h
    rcases hscan : Lexeme.scan text.toList with ⟨ls, _ | fault⟩
    · exact ⟨ls, Lexeme.cuts_of_scan hscan⟩
    · rw [hscan] at h
      cases h
  rw [hcuts.scan]
  obtain ⟨lexed, hlexed, hlooks⟩ := Lexed.ofText_of_cuts "" hcuts
  have hwords : lexed.tokens.map Token.word = Lexeme.words ls := by
    rw [Token.word_look, hlooks, Lexeme.words_looks]
  have hread : Grammar.type.runAll lexed.tokens lexed.stop = .ok type := by
    simp only [ofText?, hlexed] at h
    cases hr : Grammar.type.runAll lexed.tokens lexed.stop with
    | error e => rw [hr] at h; cases h
    | ok t => rw [hr] at h; cases h; rfl
  refine ⟨hcuts, hwords ▸ spelled_of_runAll (fun t ht => ?_) hread⟩
  exact Lexeme.words_present hcuts t.word (hwords ▸ List.mem_map_of_mem ht)

theorem TypeExpr.Spelled.ofText? {text : String} {ls : List Lexeme} {type : TypeExpr}
    (hcuts : Lexeme.Cuts text.toList ls []) (h : Spelled (Lexeme.words ls) type) :
    ∃ type', TypeExpr.ofText? text = some type' := by
  obtain ⟨lexed, hlexed, hlooks⟩ := Lexed.ofText_of_cuts "" hcuts
  have hwords : lexed.tokens.map Token.word = Lexeme.words ls := by
    rw [Token.word_look, hlooks, Lexeme.words_looks]
  obtain ⟨type', -, hread⟩ := h.read lexed.tokens [] lexed.stop []
    (Grammar.fuel ⟨lexed.tokens, lexed.stop, []⟩) hwords (by simp [Reader.Closes])
    (by simp [Grammar.fuel])
  have hall : Grammar.type.runAll lexed.tokens lexed.stop = .ok type' := by
    refine Reader.runAll_ok.mpr ⟨⟨[], lexed.stop, []⟩, ?_, rfl⟩
    rw [Grammar.run_type]
    simpa using hread
  exact ⟨type', by simp [TypeExpr.ofText?, hlexed, hall, Except.toOption]⟩

end LazySession

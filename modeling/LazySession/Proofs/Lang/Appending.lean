import LazySession.Proofs.Lang.Abreast
import LazySession.Proofs.Lang.Spans

/-!
# Texts behind texts

`Module.appends`: definitions can be written behind a module on a new line. The module then has its
declarations and those of the definitions, these with their lines further down. No token of the one
text reaches into the other: `Lexed.ofText_append`.
-/

namespace LazySession

namespace Grammar

open Reader Sides Pair

/-! ## Declarations side by side -/

section
variable {f g : Pos → Pos} {gap n : Nat} {s : Sides} {layout layout' : List Int} {ps : List Pair}

/-- Every piece is a single word. -/
def Plain (ps : List Pair) : Prop := ∀ p ∈ ps, ∃ t t', p = .word t t'

theorem Plain.suffix {qs : List Pair} (h : Plain ps) (hs : qs <:+ ps) : Plain qs :=
  fun p hp => h p (hs.subset hp)

theorem Plain.cons {p : Pair} (h : Plain (p :: ps)) : ∃ t t', p = .word t t' :=
  h p List.mem_cons_self

def TypeAlike (f g : Pos → Pos) (t t' : TypeExpr) : Prop := t.move f = t'.move g

def TypesAlike (f g : Pos → Pos) (ts ts' : List TypeExpr) : Prop :=
  ts.map (TypeExpr.move f) = ts'.map (TypeExpr.move g)

theorem peek_right_end (ht : s.tail = []) : (s.right layout' []).peek = .eof s.stop' := by
  have hpeek : (s.right layout' []).peek = s.tail.headD (.eof s.stop') := rfl
  rw [hpeek, ht]
  rfl

theorem follows_typeAtom_move {E : Prop}
    (ih : ∀ ps, Paired f g gap ps → Plain ps →
      s.Follows E (TypeAlike f g) (typeExpr n) (typeExpr n) layout layout' ps ps)
    (hp : Paired f g gap ps) (hw : Plain ps) :
    s.Follows E (TypeAlike f g) (typeAtom (n + 1)) (typeAtom (n + 1)) layout layout' ps ps := by
  cases ps with
  | nil => exact follows_fail fun _ _ => typeAtom_nil rfl _
  | cons p ps =>
    obtain ⟨t, t', rfl⟩ := hw.cons
    obtain ⟨hkind, htext, hpos⟩ := hp.head
    have hps : ps <:+ .word t t' :: ps := List.suffix_cons _ _
    rw [typeAtom]
    refine follows_next ?_
    rw [hkind]
    split
    · exact follows_pure (by simp [TypeAlike, TypeExpr.move, htext, hpos]) hps
    · exact follows_pure (by simp [TypeAlike, TypeExpr.move, htext, hpos]) hps
    · refine follows_peek ?_
      cases ps with
      | nil =>
        refine follows_fail fun a d hr => ?_
        rw [if_neg (by rw [peek_left_nil]; simp [Token.eof])] at hr
        obtain ⟨_, _, hr, _⟩ := bind_ok hr
        exact typeExpr_nil rfl n hr
      | cons q qs =>
        obtain ⟨u, u', rfl⟩ := (hw.suffix hps).cons
        have hp' := hp.suffix hps
        obtain ⟨hkind', -, -⟩ := hp'.head
        rw [peek_left, peek_right]
        change s.Follows E _ (if u.kind = .rparen then _ else _) (if u'.kind = .rparen then _ else _)
          _ _ _ _
        rw [hkind']
        by_cases hunit : u.kind = .rparen
        · rw [if_pos hunit, if_pos hunit]
          refine follows_skip (follows_pure (by simp [TypeAlike, TypeExpr.move, hpos]) ?_)
          exact (List.suffix_cons _ _).trans hps
        · rw [if_neg hunit, if_neg hunit]
          refine (follows_bind (ih _ hp' (hw.suffix hps)) fun a a' qs' hqs ha => ?_).mono hps
          refine follows_expect (hp'.suffix hqs) (by simp) (by simp) ?_
          intro v v' qs'' hqs' _ _ _
          subst hqs'
          exact follows_pure ha (List.suffix_cons _ _)
    · exact follows_fail fun _ _ hr => by cases hr

theorem follows_typeArgs_move
    (ihAtom : ∀ ps, Paired f g gap ps → Plain ps →
      s.Follows (s.tail = []) (TypeAlike f g) (typeAtom n) (typeAtom n) layout layout' ps ps)
    (ihArgs : ∀ ts ts' ps, TypesAlike f g ts ts' → Paired f g gap ps → Plain ps →
      s.Follows (s.tail = []) (TypesAlike f g) (typeArgs n ts) (typeArgs n ts') layout layout' ps ps)
    {ts ts' : List TypeExpr} (hts : TypesAlike f g ts ts') (hp : Paired f g gap ps) (hw : Plain ps) :
    s.Follows (s.tail = []) (TypesAlike f g) (typeArgs (n + 1) ts) (typeArgs (n + 1) ts') layout
      layout' ps ps := by
  have hdone : TypesAlike f g ts.reverse ts'.reverse := by
    unfold TypesAlike at hts ⊢
    rw [List.map_reverse, hts, List.map_reverse]
  rw [typeArgs, typeArgs]
  refine follows_peek ?_
  cases ps with
  | nil =>
    intro a d hr
    rw [if_neg (by rw [peek_left_nil]; simp [Token.eof, startsType])] at hr
    cases hr
    refine ⟨[], _, List.suffix_refl _, rfl, hdone, fun he => ?_⟩
    rw [peek_right_end (he rfl), if_neg (by simp [Token.eof, startsType])]
    rfl
  | cons p ps =>
    have hstarts : startsType p.first' = startsType p.first := by
      simp only [startsType, hp.head.kind]
    rw [peek_left, peek_right, hstarts]
    by_cases hmore : startsType p.first = true
    · rw [if_pos hmore, if_pos hmore]
      refine follows_bind (ihAtom _ hp hw) fun a a' qs hqs ha => ?_
      refine ihArgs _ _ qs ?_ (hp.suffix hqs) (hw.suffix hqs)
      simp only [TypesAlike, List.map_cons, List.cons.injEq]
      exact ⟨ha, hts⟩
    · rw [if_neg hmore, if_neg hmore]
      exact follows_pure hdone (List.suffix_refl _)

theorem follows_typeExpr_move
    (ihAtom : ∀ ps, Paired f g gap ps → Plain ps →
      s.Follows (s.tail = []) (TypeAlike f g) (typeAtom n) (typeAtom n) layout layout' ps ps)
    (ihArgs : ∀ ts ts' ps, TypesAlike f g ts ts' → Paired f g gap ps → Plain ps →
      s.Follows (s.tail = []) (TypesAlike f g) (typeArgs n ts) (typeArgs n ts') layout layout' ps ps)
    (ih : ∀ ps, Paired f g gap ps → Plain ps →
      s.Follows (s.tail = []) (TypeAlike f g) (typeExpr n) (typeExpr n) layout layout' ps ps)
    (hp : Paired f g gap ps) (hw : Plain ps) :
    s.Follows (s.tail = []) (TypeAlike f g) (typeExpr (n + 1)) (typeExpr (n + 1)) layout layout' ps
      ps := by
  rw [typeExpr]
  refine follows_bind (ihAtom _ hp hw) fun head head' qs hqs hhead => ?_
  refine follows_bind (ihArgs [] [] qs rfl (hp.suffix hqs) (hw.suffix hqs))
    fun args args' qs' hqs' hargs => ?_
  replace hqs := hqs'.trans hqs
  have hempty : args.isEmpty = args'.isEmpty := by
    simpa [TypesAlike] using congrArg List.isEmpty hargs
  have halike : TypeAlike f g (if args.isEmpty then head else .app head args)
      (if args'.isEmpty then head' else .app head' args') := by
    rw [hempty]
    split
    · exact hhead
    · simp only [TypeAlike, TypeExpr.move, TypeExpr.moveAll_eq, TypeExpr.app.injEq]
      exact ⟨hhead, hargs⟩
  refine follows_peek ?_
  cases qs' with
  | nil =>
    intro a d hr
    rw [if_neg (by rw [peek_left_nil]; simp [Token.eof])] at hr
    cases hr
    refine ⟨[], _, List.suffix_refl _, rfl, halike, fun he => ?_⟩
    rw [peek_right_end (he rfl), if_neg (by simp [Token.eof])]
    rfl
  | cons p qs' =>
    obtain ⟨t, t', rfl⟩ := (hw.suffix hqs).cons
    have hp' := hp.suffix hqs
    rw [peek_left, peek_right, hp'.head.kind]
    have hsuffix : qs' <:+ ps := (List.suffix_cons _ _).trans hqs
    by_cases harrow : (Pair.word t t').first.kind = .arrow
    · rw [if_pos harrow, if_pos harrow]
      refine follows_skip ((follows_bind (ih _ (hp.suffix hsuffix) (hw.suffix hsuffix))
        fun cod cod' _ _ hcod => ?_).mono (List.suffix_cons _ _))
      refine follows_pure ?_ (List.suffix_refl _)
      simp only [TypeAlike, TypeExpr.move, TypeExpr.arrow.injEq]
      exact ⟨halike, hcod⟩
    · rw [if_neg harrow, if_neg harrow]
      exact follows_pure halike (List.suffix_refl _)

theorem follows_types_move (f g : Pos → Pos) (gap : Nat) (s : Sides) (layout layout' : List Int)
    (n : Nat) :
    (∀ ps, Paired f g gap ps → Plain ps → s.Follows (s.tail = []) (TypeAlike f g) (typeExpr n)
      (typeExpr n) layout layout' ps ps) ∧
    (∀ ts ts' ps, TypesAlike f g ts ts' → Paired f g gap ps → Plain ps →
      s.Follows (s.tail = []) (TypesAlike f g) (typeArgs n ts) (typeArgs n ts') layout layout' ps
        ps) ∧
    ∀ ps, Paired f g gap ps → Plain ps → s.Follows (s.tail = []) (TypeAlike f g) (typeAtom n)
      (typeAtom n) layout layout' ps ps := by
  induction n with
  | zero =>
    refine ⟨fun ps _ _ => ?_, fun _ _ ps _ _ _ => ?_, fun ps _ _ => ?_⟩
    all_goals exact follows_fail fun _ _ => exhausted_fails _
  | succ n ih =>
    obtain ⟨hexpr, hargs, hatom⟩ := ih
    exact ⟨fun ps => follows_typeExpr_move hatom hargs hexpr,
      fun _ _ ps => follows_typeArgs_move hatom hargs, fun ps => follows_typeAtom_move hexpr⟩

theorem follows_signatureNames (ht : s.tail = []) (n : Nat) : ∀ (done : List String)
    (ps : List Pair), Paired f g gap ps → Plain ps →
    s.Follows True Eq (signatureNames n done) (signatureNames n done) layout layout' ps ps := by
  induction n with
  | zero => intro _ _ _ _; exact follows_fail fun _ _ => exhausted_fails _
  | succ n ih =>
    intro done ps hp hw
    rw [signatureNames]
    refine follows_peek ?_
    cases ps with
    | nil =>
      intro a d hr
      rw [if_neg (by rw [peek_left_nil]; simp [Token.eof])] at hr
      cases hr
      refine ⟨[], _, List.suffix_refl _, rfl, rfl, fun _ => ?_⟩
      rw [peek_right_end ht, if_neg (by simp [Token.eof])]
      rfl
    | cons p ps =>
      obtain ⟨t, t', rfl⟩ := hw.cons
      rw [peek_left, peek_right, hp.head.kind]
      have hps : ps <:+ .word t t' :: ps := List.suffix_cons _ _
      by_cases hcomma : (Pair.word t t').first.kind = .comma
      · rw [if_pos hcomma]
        refine follows_skip (follows_expect (hp.suffix hps) (by simp) (by simp) ?_)
        intro u u' qs hqs _ htext _
        subst hqs
        rw [htext]
        have hqs := (List.suffix_cons (.word u u') qs).trans hps
        exact (ih _ _ (hp.suffix hqs) (hw.suffix hqs)).mono hqs
      · rw [if_neg hcomma]
        exact follows_pure rfl (List.suffix_refl _)

def DeclAlike (f g : Pos → Pos) (d d' : Decl) : Prop := d.move f = d'.move g

theorem length_plain (hw : Plain ps) : (lefts ps).length = (rights ps).length := by
  induction ps with
  | nil => rfl
  | cons p ps ih =>
    obtain ⟨t, t', rfl⟩ := hw.cons
    simpa [lefts, rights, Pair.left, Pair.right] using ih (hw.suffix (List.suffix_cons _ _))

theorem fuel_plain (ht : s.tail = []) (hw : Plain ps) :
    fuel (s.right layout' ps) = fuel (s.left layout ps) := by
  simp [fuel, Sides.left, Sides.right, ht, length_plain hw]

theorem follows_signature (ht : s.tail = []) (hp : Paired f g gap ps) (hw : Plain ps) :
    s.Follows True (DeclAlike f g) signature signature layout layout' ps ps := by
  unfold signature
  refine follows_expect hp (by simp) (by simp) ?_
  intro t t' qs hqs _ htext hpos
  subst hqs
  have hqs : qs <:+ .word t t' :: qs := List.suffix_cons _ _
  refine follows_get ?_
  rw [fuel_plain ht (hw.suffix hqs), htext]
  refine (follows_bind (follows_signatureNames ht _ _ qs (hp.suffix hqs) (hw.suffix hqs))
    fun names names' qs₁ h₁ hnames => ?_).mono hqs
  subst hnames
  replace hqs := h₁.trans hqs
  refine follows_expect (hp.suffix hqs) (by simp) (by simp) ?_
  intro u u' qs₂ h₂ _ _ _
  subst h₂
  replace hqs := (List.suffix_cons _ _).trans hqs
  refine follows_get ?_
  rw [fuel_plain ht (hw.suffix hqs)]
  refine (follows_bind (((follows_types_move f g gap s layout layout' _).1 qs₂ (hp.suffix hqs)
    (hw.suffix hqs)).imp fun _ => ht) fun a a' _ _ ha => ?_).mono (List.suffix_cons _ _)
  refine follows_pure ?_ (List.suffix_refl _)
  simp only [DeclAlike, Decl.move, Decl.signature.injEq, true_and]
  exact ⟨hpos, ha⟩

theorem follows_declBinding (ht : s.tail = []) (strict : Bool) (n : Nat)
    (hp : Paired f g 0 ps) (hu : Under layout layout' ps.tail) :
    s.Follows True (DeclAlike f g) (binding n strict >>= fun b => pure (.binding b))
      (binding n strict >>= fun b => pure (.binding b)) layout layout' ps ps := by
  have hends : True → s.Ends layout' := by
    intro _ t hm
    rw [ht] at hm
    cases hm
  refine (follows_bind (((abreast f g 0 s n).binding strict _ _ ps hp hu).imp hends)
    fun b b' _ _ hb => ?_).mono (List.tail_suffix _)
  refine follows_pure ?_ (List.suffix_refl _)
  simp only [DeclAlike, Decl.move, Decl.binding.injEq]
  exact hb

theorem follows_decl (ht : s.tail = []) (hp : Paired f g 0 ps) (hw : Plain ps)
    (hu : Under layout layout' ps) :
    s.Follows True (DeclAlike f g) decl decl layout layout' ps ps := by
  unfold decl
  refine follows_get ?_
  cases ps with
  | nil => exact follows_fail fun _ _ hr => by cases hr
  | cons p ps =>
    obtain ⟨t, t', rfl⟩ := hw.cons
    obtain ⟨hkind, htext, hpos⟩ := hp.head
    have hps : ps <:+ .word t t' :: ps := List.suffix_cons _ _
    have hsecond : (s.right layout' (.word t t' :: ps)).peekSecond.kind =
        (s.left layout (.word t t' :: ps)).peekSecond.kind := by
      cases ps with
      | nil => simp [Sides.left, Sides.right, lefts, rights, Pair.left, Pair.right, ht,
          Cursor.peekSecond, Token.eof]
      | cons q qs =>
        obtain ⟨u, u', rfl⟩ := (hw.suffix hps).cons
        exact (hp.suffix hps).head.1
    rw [peek_left, peek_right, fuel_plain ht hw, hsecond]
    simp only [Pair.first, Pair.first', hkind]
    split
    · refine follows_skip (follows_expect (hp.suffix hps) (by simp) (by simp) ?_)
      intro u u' qs hqs _ htext' _
      subst hqs
      refine follows_pure ?_ ((List.suffix_cons _ _).trans hps)
      simp [DeclAlike, Decl.move, htext', hpos]
    · refine follows_skip ((follows_declBinding ht true _ (hp.suffix hps) ?_).mono hps)
      exact (hu.suffix hps).suffix (List.tail_suffix _)
    · split
      · exact follows_signature ht hp hw
      · exact follows_declBinding ht false _ hp (hu.suffix (List.tail_suffix _))
    · exact follows_fail fun _ _ hr => by cases hr

theorem paired_move {f : Pos → Pos} (hcol : ∀ p, (f p).col = p.col) (ts : List Token) :
    Paired f id 0 (ts.map fun t => .word t (t.move f)) := by
  have hbounds : ∀ (t : Token) (layout : List Int),
      Cursor.bounds layout t = Cursor.bounds layout (t.move f) := by
    intro t layout
    cases layout with
    | nil => rfl
    | cons x layout => simp [Cursor.bounds, Token.move, hcol]
  refine ⟨?_, ?_, ?_, ?_⟩
  · intro p hp
    obtain ⟨t, -, rfl⟩ := List.mem_map.mp hp
    exact ⟨rfl, rfl, rfl⟩
  · intro p hp
    obtain ⟨t, -, rfl⟩ := List.mem_map.mp (List.mem_of_mem_tail hp)
    exact hbounds t [0]
  · rw [List.isChain_map]
    exact (List.pairwise_of_forall fun _ _ => trivial).isChain
  · rw [List.pairwise_map]
    refine List.pairwise_of_forall fun t u => ⟨?_, ?_⟩
    · simp only [Pair.first, Pair.first', Token.move, hcol]
      exact hbounds u [t.pos.col]
    · simp [Pair.first, Pair.first', Token.move, hcol]

theorem lefts_words {f : Pos → Pos} (ts : List Token) :
    lefts (ts.map fun t => .word t (t.move f)) = ts := by
  induction ts with
  | nil => rfl
  | cons t ts ih => simpa [lefts, Pair.left] using ih

theorem rights_words {f : Pos → Pos} (ts : List Token) :
    rights (ts.map fun t => .word t (t.move f)) = ts.map (Token.move f) := by
  induction ts with
  | nil => rfl
  | cons t ts ih => simpa [rights, Pair.right] using ih

theorem decl_move {f : Pos → Pos} (hcol : ∀ p, (f p).col = p.col) {ts : List Token} {stop : Pos}
    {d : Decl} (h : decl.runAll ts stop = .ok d) (stop' : Pos) :
    decl.runAll (ts.map (Token.move f)) stop' = .ok (d.move f) := by
  obtain ⟨c, hrun, hend⟩ := runAll_ok.mp h
  have hp := paired_move hcol ts
  generalize hps : (ts.map fun t => Pair.word t (t.move f)) = ps at hp
  have hw : Plain ps := by
    intro p hm
    rw [← hps] at hm
    obtain ⟨t, -, rfl⟩ := List.mem_map.mp hm
    exact ⟨t, _, rfl⟩
  have hl : (⟨ts, stop, []⟩ : Cursor) = (⟨stop, stop', []⟩ : Sides).left [] ps := by
    rw [Sides.left, ← hps, lefts_words]
  have hr : (⟨ts.map (Token.move f), stop', []⟩ : Cursor) =
      (⟨stop, stop', []⟩ : Sides).right [] ps := by
    rw [Sides.right, ← hps, rights_words, List.append_nil]
  rw [hl] at hrun
  have hunder : Under [] [] ps := fun _ _ => rfl
  obtain ⟨qs, d', hqs, rfl, halike, hrun'⟩ := follows_decl rfl hp hw hunder d c hrun
  have hmoved : d.move f = d' := by rw [halike, Decl.move_id]
  rw [hmoved]
  refine runAll_ok.mpr ⟨_, hr ▸ hrun' fun _ => trivial, ?_⟩
  cases qs with
  | nil => rfl
  | cons q qs =>
    rw [peek_left] at hend
    rw [peek_right, (hp.suffix hqs).head.kind, hend]

end

end Grammar

/-! ## Tokens of a longer text -/

theorem Pos.after_down (n : Nat) (p : Pos) (cs : List Char) :
    (p.down n).after cs = (p.after cs).down n := by
  induction cs generalizing p with
  | nil => rfl
  | cons c cs ih =>
    have hstep : (p.down n).step c = (p.step c).down n := by
      by_cases hc : c = '\n'
      · simp [step, down, hc]
        omega
      · simp [step, down, hc]
    simpa [after, hstep] using ih (p.step c)

theorem Pos.line_after_eq (p : Pos) (cs : List Char) :
    (p.after cs).line = p.line + cs.count '\n' := by
  induction cs generalizing p with
  | nil => simp [after]
  | cons c cs ih =>
    have hih := ih (p.step c)
    by_cases hc : c = '\n'
    · subst hc
      simp only [after, List.foldl_cons, List.count_cons_self, step, if_true] at hih ⊢
      rw [hih]
      omega
    · rw [List.count_cons_of_ne hc]
      simpa [after, step, hc] using hih

namespace Lexeme

theorem place_down (n : Nat) (pos : Pos) (fresh : Bool) (ls : List Lexeme) :
    place (pos.down n) fresh ls = (place pos fresh ls).map (Token.move (Pos.down n)) := by
  induction ls generalizing pos fresh with
  | nil => rfl
  | cons l ls ih =>
    simp only [place, Pos.after_down]
    cases l.token? with
    | none => exact ih _ _
    | some k => simp [ih, Token.move]

theorem place_break (ls ls' : List Lexeme) : ∀ (pos : Pos) (fresh : Bool),
    place pos fresh (ls ++ blank ['\n'] :: ls') =
      place pos fresh ls ++ place ((pos.after (chars ls)).step '\n') true ls' := by
  induction ls with
  | nil =>
    intro pos fresh
    simp [place, blank, chars, Pos.after]
  | cons l ls ih =>
    intro pos fresh
    have hchars : (pos.after l.raw).after (chars ls) = pos.after (chars (l :: ls)) := by
      rw [← Pos.after_append]
      simp [chars]
    simp only [List.cons_append, place, ih, hchars]
    cases l.token? with
    | none => rfl
    | some k => rfl

theorem Cuts.chars {cs rest : List Char} {ls : List Lexeme} (h : Cuts cs ls rest) :
    cs = Lexeme.chars ls ++ rest := by
  induction h with
  | done => rfl
  | step hn _ ih =>
    rw [(faithful_next hn).1, ih]
    simp [Lexeme.chars]

end Lexeme

/-- The lines that a text takes in front of another. -/
def linesOf (text : String) : Nat := text.toList.count '\n' + 1

/-- The tokens of a text and of another on a new line behind it. -/
theorem Lexed.ofText_append {source source' a b : String} {x y : Lexed}
    (ha : ofText source a = .ok x) (hb : ofText source' b = .ok y) (s : String) :
    ∃ z, ofText s (a ++ "\n" ++ b) = .ok z ∧
      z.tokens = x.tokens ++ y.tokens.map (Token.move (Pos.down (linesOf a))) := by
  obtain ⟨ls, hls, hx⟩ := cuts_of_ofText ha
  obtain ⟨ls', hls', hy⟩ := cuts_of_ofText hb
  have hcuts : Lexeme.Cuts (a.toList ++ '\n' :: b.toList) (ls ++ Lexeme.blank ['\n'] :: ls') [] :=
    (hls.stop (.inr (.inl rfl)) b.toList (.inl rfl)).append
      (.step (Lexeme.next_blank (by decide) b.toList) hls')
  have htext : (a ++ "\n" ++ b).toList = a.toList ++ '\n' :: b.toList := by simp
  rw [← htext] at hcuts
  have hscan := hcuts.scan
  refine ⟨_, by rw [ofText, hscan], ?_⟩
  simp only [Lexeme.tokens, Lexeme.tokensFrom_eq, List.reverse_nil, List.nil_append]
  have hpos : (Pos.start.after (Lexeme.chars ls)).step '\n' = Pos.start.down (linesOf a) := by
    have hchars := hls.chars
    rw [List.append_nil] at hchars
    rw [← hchars, Pos.step, if_pos rfl, Pos.line_after_eq]
    simp only [Pos.down, Pos.start, linesOf, Pos.mk.injEq, and_true]
    omega
  rw [Lexeme.place_break, hpos, Lexeme.place_down, hx, hy]

/-! ## Items of a longer text -/

namespace Item

def move (f : Pos → Pos) (i : Item) : Item := ⟨i.first.move f, i.rest.map (Token.move f)⟩

theorem splitFrom_append_starts {t : Token} (ht : startsItem t) (us : List Token) :
    ∀ (ts : List Token) (first : Token) (seen : List Token) (done : List Item),
      splitFrom first seen done (ts ++ t :: us) = splitFrom first seen done ts ++ split (t :: us) := by
  intro ts
  induction ts with
  | nil =>
    intro first seen done
    simp only [List.nil_append, splitFrom]
    rw [if_pos ht, splitFrom_done]
    rfl
  | cons u ts ih =>
    intro first seen done
    simp only [List.cons_append, splitFrom]
    split
    · exact ih _ _ _
    · exact ih _ _ _

theorem split_append (ts : List Token) {us : List Token} (h : Ends us) :
    split (ts ++ us) = split ts ++ split us := by
  cases us with
  | nil => simp [split]
  | cons u us =>
    cases ts with
    | nil => rfl
    | cons t ts => exact splitFrom_append_starts (h u rfl) us ts t [] []

theorem split_move {f : Pos → Pos} (hcol : ∀ p, (f p).col = p.col) (ts : List Token) :
    split (ts.map (Token.move f)) = (split ts).map (move f) := by
  have step : ∀ (ts : List Token) (first : Token) (seen : List Token) (done : List Item),
      splitFrom (first.move f) (seen.map (Token.move f)) (done.map (move f))
        (ts.map (Token.move f)) = (splitFrom first seen done ts).map (move f) := by
    intro ts
    induction ts with
    | nil => intro first seen done; simp [splitFrom, move]
    | cons t ts ih =>
      intro first seen done
      have hstarts : startsItem (t.move f) = startsItem t := by
        simp [startsItem, Token.move, hcol]
      simp only [List.map_cons, splitFrom, hstarts]
      split
      · have hih := ih t [] (⟨first, seen.reverse⟩ :: done)
        simpa [move] using hih
      · exact ih first (t :: seen) done
  cases ts with
  | nil => rfl
  | cons t ts => exact step ts t [] []

theorem decls_move {f : Pos → Pos} (hcol : ∀ p, (f p).col = p.col) {items : List Item} :
    ∀ {ds : List Decl}, items.map decl = ds.map .ok →
      (items.map (move f)).map decl = (ds.map (Decl.move f)).map .ok := by
  induction items with
  | nil =>
    intro ds h
    obtain rfl : ds = [] := by simpa using h.symm
    rfl
  | cons i items ih =>
    intro ds h
    cases ds with
    | nil => cases h
    | cons d ds =>
      simp only [List.map_cons, List.cons.injEq] at h ⊢
      exact ⟨Grammar.decl_move hcol h.1 _, ih h.2⟩

end Item

theorem Decl.ofItems_ok {source : String} {items : List Item} {decls : List Decl} :
    ofItems source items = .ok decls ↔ items.map Item.decl = decls.map .ok := by
  refine ⟨fun h => ?_, ofItems_eq source⟩
  have hall := decl_of_ofItems h
  -- the declarations are what the items give
  obtain ⟨ds, hds⟩ : ∃ ds : List Decl, items.map Item.decl = ds.map .ok := by
    clear h
    induction items with
    | nil => exact ⟨[], rfl⟩
    | cons i items ih =>
      rw [List.forall_mem_cons] at hall
      obtain ⟨d, hd⟩ := hall.1
      obtain ⟨ds, hds⟩ := ih hall.2
      exact ⟨d :: ds, by simp [hd, hds]⟩
  have heq := ofItems_eq source hds
  rw [h] at heq
  cases heq
  exact hds

theorem Reader.expect_cons {kind : TokenKind} {what : String} {c d : Cursor} {t : Token}
    (hk : kind ≠ .eof) (h : (expect kind what).run c = .ok (t, d)) :
    ∃ ts, c.toks = t :: ts ∧ t.kind = kind ∧ d = { c with toks := ts } := by
  by_cases hkind : c.peek.kind = kind
  · rw [Grammar.run_expect hkind] at h
    cases h
    have htoks := toks_eq_advance (c := c) (by rw [hkind]; exact hk)
    exact ⟨c.advance.toks, by simpa using htoks, hkind, rfl⟩
  · change (if c.peek.kind = kind then next else fail c.peek (.expected what c.peek)).run c = _ at h
    rw [if_neg hkind] at h
    cases h

theorem Grammar.moduleHeader_ok {toks : List Token} {stop pos : Pos} {name : String} {c : Cursor}
    (h : moduleHeader.run { toks, stop } = .ok ((pos, name), c)) :
    ∃ t₁ t₂ t₃, toks = t₁ :: t₂ :: t₃ :: c.toks ∧ t₁.kind = .kwModule ∧ t₂.kind = .conid ∧
      t₃.kind = .kwWhere ∧ pos = t₁.pos ∧ name = t₂.text := by
  obtain ⟨t₁, c₁, h₁, h⟩ := Reader.bind_ok h
  obtain ⟨t₂, c₂, h₂, h⟩ := Reader.bind_ok h
  obtain ⟨t₃, c₃, h₃, h⟩ := Reader.bind_ok h
  cases h
  obtain ⟨ts₁, hts₁, hk₁, rfl⟩ := Reader.expect_cons (by simp) h₁
  obtain ⟨ts₂, hts₂, hk₂, rfl⟩ := Reader.expect_cons (by simp) h₂
  obtain ⟨ts₃, hts₃, hk₃, rfl⟩ := Reader.expect_cons (by simp) h₃
  simp only at hts₁ hts₂ hts₃
  exact ⟨t₁, t₂, t₃, by rw [hts₁, hts₂, hts₃], hk₁, hk₂, hk₃, rfl, rfl⟩

theorem Fragment.definitions_ok {source text : String} {ds : List Decl}
    (h : ofText source text = .ok (.definitions ds)) : ∃ x, Lexed.ofText source text = .ok x ∧
      Decl.ofItems source (Item.split x.tokens) = .ok ds := by
  unfold ofText at h
  split at h
  · cases h
  · rename_i tokens stop hlex
    refine ⟨_, hlex, ?_⟩
    split at h
    · cases h
      rfl
    · split at h
      · rename_i t ts _
        cases hm : Module.ofTokens source (t :: ts) stop with
        | error es => rw [hm] at h; cases h
        | ok m => rw [hm] at h; cases h
      · rename_i t ts _
        unfold ofItems at h
        split at h
        · cases hds : Decl.ofItems source (Item.split (t :: ts)) with
          | error es => rw [hds] at h; cases h
          | ok ds' =>
            rw [hds] at h
            cases h
            rfl
        · split at h
          · cases h
          · split at h <;> cases h

namespace Module

variable {source source' text defs : String} {m : Module} {ds : List Decl} {y : Lexed}

theorem ofText_ok (h : ofText source text = .ok m) : ∃ x t₁ t₂ t₃ ts,
    Lexed.ofText source text = .ok x ∧ x.tokens = t₁ :: t₂ :: t₃ :: ts ∧ t₁.kind = .kwModule ∧
      t₂.kind = .conid ∧ t₃.kind = .kwWhere ∧ m.pos = t₁.pos ∧ m.name = t₂.text ∧
      Decl.ofItems source (Item.split ts) = .ok m.decls := by
  unfold ofText at h
  split at h
  · cases h
  · rename_i tokens stop hlex
    split at h
    · cases h
    · split at h
      · unfold ofTokens at h
        split at h
        · cases h
        · rename_i pos name c hheader
          obtain ⟨t₁, t₂, t₃, htoks, h₁, h₂, h₃, rfl, rfl⟩ := Grammar.moduleHeader_ok hheader
          cases hdecls : Decl.ofItems source (Item.split c.toks) with
          | error es =>
            rw [hdecls] at h
            cases h
          | ok ds =>
            rw [hdecls] at h
            cases h
            exact ⟨_, t₁, t₂, t₃, c.toks, hlex, htoks, h₁, h₂, h₃, rfl, rfl, hdecls⟩
      · cases h

theorem ofText_of_tokens {x : Lexed} {t₁ t₂ t₃ : Token} {ts : List Token}
    (hlex : Lexed.ofText source text = .ok x) (hx : x.tokens = t₁ :: t₂ :: t₃ :: ts)
    (h₁ : t₁.kind = .kwModule) (h₂ : t₂.kind = .conid) (h₃ : t₃.kind = .kwWhere)
    (hds : Decl.ofItems source (Item.split ts) = .ok ds) :
    ofText source text = .ok ⟨t₁.pos, t₂.text, ds⟩ := by
  obtain ⟨tokens, stop⟩ := x
  simp only at hx
  subst hx
  simp only [ofText, hlex, h₁, if_true, ofTokens, Grammar.run_moduleHeader h₁ h₂ h₃, hds]
  rfl

/-- Whatever ends the text of a module, definitions can follow on a new line, the first of them in
column 1. The tokens of any two texts that are put together in this way are those of both. -/
theorem appends (source source' text defs : String) :
    (∀ m ds, ofText source text = .ok m → Fragment.ofText source' defs = .ok (.definitions ds) →
      (∀ y, Lexed.ofText source' defs = .ok y → ∀ t ∈ y.tokens.head?, t.pos.col = 1) →
      ofText source (text ++ "\n" ++ defs) =
        .ok { m with decls := m.decls ++ ds.map (Decl.move (Pos.down (linesOf text))) }) ∧
    ∀ x y, Lexed.ofText source text = .ok x → Lexed.ofText source' defs = .ok y →
      ∃ z, Lexed.ofText source (text ++ "\n" ++ defs) = .ok z ∧
        z.tokens = x.tokens ++ y.tokens.map (Token.move (Pos.down (linesOf text))) := by
  refine ⟨fun m ds hm hds hcol => ?_, fun x y hx hy => Lexed.ofText_append hx hy source⟩
  obtain ⟨x, t₁, t₂, t₃, ts, hx, htoks, h₁, h₂, h₃, hpos, hname, hdecls⟩ := ofText_ok hm
  obtain ⟨y, hy, hdefs⟩ := Fragment.definitions_ok hds
  obtain ⟨z, hz, hztoks⟩ := Lexed.ofText_append hx hy source
  rw [htoks] at hztoks
  have hdown : ∀ p : Pos, (p.down (linesOf text)).col = p.col := fun _ => rfl
  have hends : Item.Ends (y.tokens.map (Token.move (Pos.down (linesOf text)))) := by
    intro u hu
    rw [List.head?_map, Option.mem_def, Option.map_eq_some_iff] at hu
    obtain ⟨t, ht, rfl⟩ := hu
    obtain ⟨ts', hts'⟩ := List.head?_eq_some_iff.mp ht
    have hstarts := ((Lexed.starts_ofText hy).2 [] t ts' hts').mpr nofun
    simp [Item.startsItem, Token.move, Pos.down, hstarts, hcol y hy t ht]
  have hitems : Decl.ofItems source (Item.split (ts ++ y.tokens.map (Token.move
      (Pos.down (linesOf text))))) = .ok (m.decls ++ ds.map (Decl.move (Pos.down (linesOf text)))) := by
    rw [Decl.ofItems_ok] at hdecls hdefs ⊢
    rw [Item.split_append ts hends, Item.split_move hdown, List.map_append, hdecls, List.map_append]
    rw [Item.decls_move hdown hdefs]
  have hall := ofText_of_tokens hz hztoks h₁ h₂ h₃ hitems
  rw [hall, ← hpos, ← hname]

/-- A module that ends in a comment, and definitions that go over a line. -/
theorem appends_commented : ∃ m ds, ofText "m" "module M where\nx = 1 -- one" = .ok m ∧
    Fragment.ofText "d" "y =\n  x\nz = y" = .ok (.definitions ds) ∧
    m.decls.map Decl.pos = [⟨2, 1⟩] ∧ ds.map Decl.pos = [⟨1, 1⟩, ⟨3, 1⟩] ∧
    ofText "m" ("module M where\nx = 1 -- one" ++ "\n" ++ "y =\n  x\nz = y") =
      .ok { m with decls := m.decls ++ ds.map (Decl.move (Pos.down 2)) } := by
  have hm : (ofText "m" "module M where\nx = 1 -- one").toOption.map (·.decls.map Decl.pos) =
      some [⟨2, 1⟩] := by decide +kernel
  have hd : (Fragment.ofText "d" "y =\n  x\nz = y").toOption.map (fun
      | .definitions ds => ds.map Decl.pos
      | _ => []) = some [⟨1, 1⟩, ⟨3, 1⟩] := by decide +kernel
  have hy : (Lexed.ofText "d" "y =\n  x\nz = y").toOption.map (·.tokens.head?.map (·.pos.col)) =
      some (some 1) := by decide +kernel
  cases hread : ofText "m" "module M where\nx = 1 -- one" with
  | error es => rw [hread] at hm; cases hm
  | ok m =>
    cases hdefs : Fragment.ofText "d" "y =\n  x\nz = y" with
    | error es => rw [hdefs] at hd; cases hd
    | ok f =>
      rw [hread] at hm
      rw [hdefs] at hd
      cases f with
      | definitions ds =>
        refine ⟨m, ds, rfl, rfl, Option.some.inj hm, Option.some.inj hd, ?_⟩
        refine (appends "m" "d" _ _).1 m ds hread hdefs fun y hlex t ht => ?_
        rw [hlex] at hy
        simpa [Except.toOption, Option.mem_def.mp ht] using hy
      | expression e => cases hd
      | module m' => cases hd

end Module

end LazySession

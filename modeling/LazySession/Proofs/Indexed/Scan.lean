import LazySession.Proofs.Indexed.Mirror
import LazySession.Proofs.Lang.Letters
import LazySession.Proofs.Lang.Spans

/-!
# Scanning by index

The text as a list of characters with an offset in it, scanned round by round: `Indexed.lex_eq`. With
enough rounds no character is looked for behind the end, and the tokens and the faults are those of
`Lexed.ofText`.
-/

namespace LazySession

namespace Indexed

open Text

variable {α β : Type}

/-! ## The scanner -/

structure Scan where
  src : List Char
  off : Nat := 0
  pos : Pos := .start
  /-- Whether no token stands before on the line. -/
  fresh : Bool := true
  tokens : List Token := []

abbrev Scanner (α : Type) := StateT Scan (Except Halt) α

namespace Scanner

def tooDeep : Scanner α := throw .tooDeep

def fail (pos : Pos) (fault : SyntaxFault) : Scanner α := throw (.issue ⟨pos, fault⟩)

def more : Scanner Bool := return (← get).off < (← get).src.length

/-- The character `n` places further on; behind the end, the character 0. -/
def peek (n : Nat) : Scanner Char := do
  let s ← get
  if s.src.length ≤ s.off + n then return '\x00'
  else index s.src (s.off + n)

def advance : Scanner Char := do
  let s ← get
  let c ← index s.src s.off
  set { s with off := s.off + 1, pos := s.pos.step c, fresh := s.fresh || c == '\n' }
  return c

def emit (kind : TokenKind) (text : List Char) (pos : Pos) : Scanner Unit :=
  modify fun s =>
    { s with tokens := s.tokens ++ [⟨kind, String.ofList text, pos, s.fresh⟩], fresh := false }

/-- Takes characters of a class, behind those in `done` (last first). -/
def stretch : Nat → (p : Char → Bool) → (done : List Char) → Scanner (List Char)
  | 0, _, _ => tooDeep
  | n + 1, p, done => do
    if ← more then
      if p (← peek 0) then
        let c ← advance
        stretch n p (c :: done)
      else return done.reverse
    else return done.reverse

/-- The further parts of a dotted name, behind `done`. -/
def qualified : Nat → (done : List Char) → Scanner (TokenKind × List Char)
  | 0, _ => tooDeep
  | n + 1, done => do
    if (← peek 0) = '.' then
      let c ← peek 1
      if isUpper c then
        let _ ← advance
        let part ← stretch n isIdentPart []
        qualified n (done ++ '.' :: part)
      else if isIdentStart c then
        let _ ← advance
        let part ← stretch n isIdentPart []
        return (.qvar, done ++ '.' :: part)
      else return (.conid, done)
    else return (.conid, done)

/-- The rest of a string literal that starts at `start`. -/
def string (start : Pos) : Nat → (text : List Char) → Scanner (List Char)
  | 0, _ => tooDeep
  | n + 1, text => do
    if ← more then
      if (← peek 0) = '\n' then fail start .unterminatedString
      else
        let c ← advance
        if c = '"' then return text.reverse
        else if c = '\\' then
          if ← more then
            let d ← advance
            match Lexeme.unescape? d with
            | some e => string start n (e :: text)
            | none => fail start (.unknownEscape d)
          else fail start .unterminatedString
        else string start n (c :: text)
    else fail start .unterminatedString

/-- The rest of `depth` comments, the outermost of which starts at `start`. -/
def comment (start : Pos) : Nat → (depth : Nat) → Scanner Unit
  | 0, _ => tooDeep
  | n + 1, depth => do
    if ← more then
      let c ← peek 0
      let d ← peek 1
      if c = '{' ∧ d = '-' then
        let _ ← advance
        let _ ← advance
        comment start n (depth + 1)
      else if c = '-' ∧ d = '}' then
        let _ ← advance
        let _ ← advance
        if depth - 1 = 0 then return () else comment start n (depth - 1)
      else
        let _ ← advance
        comment start n depth
    else fail start .unterminatedComment

def single (kind : TokenKind) (pos : Pos) : Scanner Unit := do
  let c ← advance
  emit kind [c] pos

/-- One round: what starts at the next character. -/
def round (n : Nat) : Scanner Unit := do
  let c ← peek 0
  let d ← peek 1
  let pos := (← get).pos
  if isBlank c then
    let _ ← advance
  else if c = '{' ∧ d = '-' then
    let _ ← advance
    let _ ← advance
    comment pos n 1
  else if isIdentStart c then
    let word ← stretch n isIdentPart []
    emit (.ofWord (String.ofList word)) word pos
  else if isUpper c then
    let head ← stretch n isIdentPart []
    let (kind, text) ← qualified n head
    emit kind text pos
  else if isDigit c then
    let digits ← stretch n isDigit []
    emit .int digits pos
  else if c = '"' then
    let _ ← advance
    let text ← string pos n []
    emit .string text pos
  else if c = '(' then single .lparen pos
  else if c = ')' then single .rparen pos
  else if c = ',' then single .comma pos
  else if c = ';' then single .semi pos
  else if isSymbol c then
    let symbols ← stretch n isSymbol []
    if 2 ≤ symbols.length && symbols.all (· == '-') then
      let _ ← stretch n (· != '\n') []
    else emit (.ofSymbols (String.ofList symbols)) symbols pos
  else fail pos (.unexpectedChar c)

def rounds : Nat → Scanner Unit
  | 0 => tooDeep
  | n + 1 => do
    if ← more then
      round n
      rounds n
    else return ()

end Scanner

/-- The tokens of a text with the one that stands for the end, or the fault. -/
def lex (n : Nat) (source text : String) : Except Halt (Except SyntaxError (List Token)) :=
  match (Scanner.rounds n).run { src := text.toList } with
  | .error (.issue i) => .ok (.error (i.in source))
  | .error halt => .error halt
  | .ok ((), s) => do
    let stop ← if 0 < s.tokens.length then do
        let last ← index s.tokens (s.tokens.length - 1)
        pure last.stop
      else pure s.pos
    return .ok (s.tokens ++ [.eof stop])

/-! ## What is ahead -/

namespace Scan

variable {s : Scan} {cs rest raw : List Char} {c : Char}

/-- The characters from the offset on. -/
def Ahead (s : Scan) (cs : List Char) : Prop :=
  ∃ before, s.src = before ++ cs ∧ s.off = before.length

/-- Behind further characters, none of which is a token. -/
def behind (s : Scan) (raw : List Char) : Scan :=
  { s with
    off := s.off + raw.length
    pos := s.pos.after raw
    fresh := s.fresh || raw.contains '\n' }

theorem behind_nil (s : Scan) : s.behind [] = s := by
  simp [behind, Pos.after]

theorem behind_append (s : Scan) (raw raw' : List Char) :
    s.behind (raw ++ raw') = (s.behind raw).behind raw' := by
  simp [behind, Pos.after_append, Nat.add_assoc, Bool.or_assoc]

/-- Behind a lexeme, with its token. -/
def taking (s : Scan) (l : Lexeme) : Scan :=
  match l.token? with
  | some (kind, text) =>
    { s.behind l.raw with tokens := s.tokens ++ [⟨kind, text, s.pos, s.fresh⟩], fresh := false }
  | none => s.behind l.raw

/-- Behind what was cut off, or at its fault. -/
def cutting (s : Scan) : Lexeme.Cut → Except Halt (Unit × Scan)
  | .ok (l, _) => .ok ((), s.taking l)
  | .error f => .error (.issue ⟨s.pos, f⟩)

/-- Behind all of the lexemes, or at the fault behind them. -/
def cuttingAll (s : Scan) : List Lexeme × Option SyntaxFault → Except Halt (Unit × Scan)
  | (ls, none) => .ok ((), ls.foldl taking s)
  | (ls, some f) => .error (.issue ⟨s.pos.after (Lexeme.chars ls), f⟩)

theorem pos_taking (s : Scan) (l : Lexeme) : (s.taking l).pos = s.pos.after l.raw := by
  unfold taking
  split <;> rfl

theorem cuttingAll_cons (s : Scan) (l : Lexeme) (ls : List Lexeme) (f : Option SyntaxFault) :
    s.cuttingAll (l :: ls, f) = (s.taking l).cuttingAll (ls, f) := by
  cases f with
  | none => rfl
  | some f =>
    simp only [cuttingAll, pos_taking, ← Pos.after_append]
    rfl

theorem tokens_taking (s : Scan) (ls : List Lexeme) :
    (ls.foldl taking s).tokens = s.tokens ++ Lexeme.place s.pos s.fresh ls := by
  induction ls generalizing s with
  | nil => simp [Lexeme.place]
  | cons l ls ih =>
    rw [List.foldl_cons, ih, pos_taking, Lexeme.place]
    unfold taking
    cases l.token? <;> simp [behind]

theorem pos_takingAll (s : Scan) (ls : List Lexeme) :
    (ls.foldl taking s).pos = s.pos.after (Lexeme.chars ls) := by
  induction ls generalizing s with
  | nil => rfl
  | cons l ls ih =>
    rw [List.foldl_cons, ih, pos_taking, ← Pos.after_append]
    rfl

theorem Ahead.behind (h : s.Ahead (raw ++ rest)) : (s.behind raw).Ahead rest := by
  obtain ⟨before, hsrc, hoff⟩ := h
  exact ⟨before ++ raw, by simp [Scan.behind, hsrc], by simp [Scan.behind, hoff]⟩

theorem Ahead.behind_cons (h : s.Ahead (c :: cs)) : (s.behind [c]).Ahead cs :=
  Ahead.behind h

theorem Ahead.word {p : Char → Bool} (h : s.Ahead (c :: cs)) :
    (s.behind (c :: cs.takeWhile p)).Ahead (cs.dropWhile p) :=
  Ahead.behind (by simpa [List.takeWhile_append_dropWhile] using h)

theorem Ahead.taking {l : Lexeme} (h : s.Ahead (l.raw ++ rest)) : (s.taking l).Ahead rest := by
  unfold Scan.taking
  split <;> exact h.behind

end Scan

namespace Scanner

variable {s : Scan} {cs rest raw : List Char} {c : Char} {n : Nat}

theorem run_bind (x : Scanner α) (f : α → Scanner β) (s : Scan) :
    (x >>= f).run s = match x.run s with
      | .ok (a, s') => (f a).run s'
      | .error e => .error e := by
  simp only [StateT.run_bind]
  cases x.run s <;> rfl

theorem run_step {x : Scanner α} {f : α → Scanner β} {a : α} {s' : Scan}
    (h : x.run s = .ok (a, s')) : (x >>= f).run s = (f a).run s' := by
  rw [run_bind, h]

theorem run_lift (e : Except Halt α) (s : Scan) :
    (liftM e : Scanner α).run s = match e with
      | .ok a => .ok (a, s)
      | .error h => .error h := by
  cases e <;> rfl

theorem run_more (h : s.Ahead cs) : more.run s = .ok (!cs.isEmpty, s) := by
  obtain ⟨before, hsrc, hoff⟩ := h
  have hrun : more.run s = .ok (decide (s.off < s.src.length), s) := rfl
  rw [hrun, hsrc, hoff]
  cases cs <;> simp

theorem run_peek (h : s.Ahead cs) (i : Nat) :
    (peek i).run s = .ok (cs.getD i '\x00', s) := by
  obtain ⟨before, hsrc, hoff⟩ := h
  have hrun : (peek i).run s = (if s.src.length ≤ s.off + i then (return '\x00' : Scanner Char)
      else liftM (index s.src (s.off + i))).run s := rfl
  rw [hrun, hsrc, hoff]
  by_cases hi : cs.length ≤ i
  · have hget : cs.getD i '\x00' = '\x00' := by simp [List.getD, hi]
    rw [if_pos (by simp [hi]), hget]
    rfl
  · have hlt : i < cs.length := Nat.lt_of_not_le hi
    have hget : (before ++ cs)[before.length + i]? = some (cs.getD i '\x00') := by
      rw [List.getElem?_append_right (by omega), Nat.add_sub_cancel_left]
      simp [List.getD, hlt]
    have hindex := index_eq_ok hget
    push_cast at hindex
    rw [if_neg (by simp [hi]), run_lift, hindex]

theorem run_advance (h : s.Ahead (c :: cs)) : advance.run s = .ok (c, s.behind [c]) := by
  obtain ⟨before, hsrc, hoff⟩ := h
  have hindex : index s.src s.off = .ok c := by
    rw [hsrc, hoff]
    exact index_append before c cs
  have hrun : advance.run s = ((liftM (index s.src s.off) : Scanner Char) >>= fun c => do
      set { s with off := s.off + 1, pos := s.pos.step c, fresh := s.fresh || c == '\n' }
      return c).run s := rfl
  rw [hrun, run_step (by rw [run_lift, hindex])]
  have hline : [c].contains '\n' = (c == '\n') := by
    rw [List.contains_cons, List.contains_nil, Bool.or_false, Bool.beq_comm]
  unfold Scan.behind
  rw [hline]
  rfl

theorem run_stretch (p : Char → Bool) (done : List Char) (h : s.Ahead cs)
    (hn : cs.length < n) : (stretch n p done).run s =
      .ok (done.reverse ++ cs.takeWhile p, s.behind (cs.takeWhile p)) := by
  induction n generalizing s cs done with
  | zero => omega
  | succ n ih =>
    unfold stretch
    rw [run_step (run_more h)]
    cases cs with
    | nil =>
      rw [List.takeWhile_nil, List.append_nil, Scan.behind_nil]
      rfl
    | cons c cs =>
      simp only [List.isEmpty_cons, Bool.not_false, if_true]
      rw [run_step (run_peek h 0)]
      cases hp : p c with
      | false =>
        have htake : (c :: cs).takeWhile p = [] := by simp [hp]
        rw [List.getD_cons_zero, if_neg (by simp [hp]), htake, List.append_nil, Scan.behind_nil]
        rfl
      | true =>
        have htake : (c :: cs).takeWhile p = [c] ++ cs.takeWhile p := by simp [hp]
        simp only [List.getD_cons_zero, hp, if_true]
        rw [run_step (run_advance h), ih _ h.behind_cons (by simpa using hn), htake,
          Scan.behind_append]
        simp

theorem run_word {p : Char → Bool} (hc : p c = true) (h : s.Ahead (c :: cs))
    (hn : cs.length + 1 < n) : (stretch n p []).run s =
      .ok (c :: cs.takeWhile p, s.behind (c :: cs.takeWhile p)) := by
  have htake : (c :: cs).takeWhile p = c :: cs.takeWhile p := by simp [hc]
  rw [run_stretch p [] h hn, htake]
  rfl

theorem dotted_none {z : Char} (h : ¬ (cs.getD 0 z = '.' ∧
    (isUpper (cs.getD 1 z) = true ∨ isIdentStart (cs.getD 1 z) = true))) :
    Lexeme.dotted cs = (.conid, [], cs) := by
  match cs with
  | [] | [_] => rw [Lexeme.dotted]; simp
  | dot :: c :: cs =>
    simp only [List.getD_cons_zero, List.getD_cons_succ, not_and_or, not_or] at h
    rw [Lexeme.dotted, if_neg (by tauto), if_neg (by tauto)]

theorem exists_cons_cons {p : Char → Bool} (hp : p '\x00' = false)
    (hdot : cs.getD 0 '\x00' = '.') (h : p (cs.getD 1 '\x00') = true) :
    ∃ c cs', cs = '.' :: c :: cs' ∧ p c = true := by
  match cs with
  | [] => cases hdot
  | [_] => exact absurd h (by simp [hp])
  | dot :: c :: cs =>
    simp only [List.getD_cons_zero, List.getD_cons_succ] at hdot h
    exact ⟨c, cs, by rw [hdot], h⟩

theorem run_qualified (done : List Char) (h : s.Ahead cs) (hn : cs.length < n) :
    (qualified n done).run s = .ok (((Lexeme.dotted cs).1, done ++ (Lexeme.dotted cs).2.1),
      s.behind (Lexeme.dotted cs).2.1) := by
  induction n generalizing s cs done with
  | zero => omega
  | succ n ih =>
    unfold qualified
    rw [run_step (run_peek h 0)]
    by_cases hdot : cs.getD 0 '\x00' = '.'
    · rw [if_pos hdot, run_step (run_peek h 1)]
      by_cases hu : isUpper (cs.getD 1 '\x00') = true
      · rw [if_pos hu]
        obtain ⟨c, cs, rfl, hc⟩ := exists_cons_cons (by decide) hdot hu
        have hdots : Lexeme.dotted ('.' :: c :: cs) =
            ((Lexeme.dotted (cs.dropWhile isIdentPart)).1,
              '.' :: (c :: cs.takeWhile isIdentPart ++ (Lexeme.dotted (cs.dropWhile isIdentPart)).2.1),
              (Lexeme.dotted (cs.dropWhile isIdentPart)).2.2) := by
          rw [Lexeme.dotted, if_pos ⟨rfl, hc⟩]
          simp
        have hs₁ := h.behind_cons
        have hlen := length_dropWhile_le isIdentPart cs
        simp only [List.length_cons] at hn
        rw [run_step (run_advance h), run_step (run_word (isIdentPart_of_upper hc) hs₁ (by omega)),
          ih _ hs₁.word (by omega), hdots]
        simp [← Scan.behind_append]
      · rw [if_neg hu]
        by_cases hi : isIdentStart (cs.getD 1 '\x00') = true
        · rw [if_pos hi]
          obtain ⟨c, cs, rfl, hc⟩ := exists_cons_cons (by decide) hdot hi
          have hdots : Lexeme.dotted ('.' :: c :: cs) =
              (.qvar, '.' :: c :: cs.takeWhile isIdentPart, cs.dropWhile isIdentPart) := by
            rw [Lexeme.dotted, if_neg fun hu' => hu hu'.2, if_pos ⟨rfl, hc⟩]
          have hs₁ := h.behind_cons
          simp only [List.length_cons] at hn
          rw [run_step (run_advance h),
            run_step (run_word (isIdentPart_of_identStart hc) hs₁ (by omega)), hdots]
          rw [← Scan.behind_append]
          rfl
        · rw [if_neg hi, dotted_none (z := '\x00') (by tauto)]
          simp only [List.append_nil, Scan.behind_nil]
          rfl
    · rw [if_neg hdot, dotted_none (z := '\x00') (by tauto)]
      simp only [List.append_nil, Scan.behind_nil]
      rfl

/-- A scan from `s` ends as the lexeme is cut that has `raw` in front of it (last first): with the
characters it took and a token made of what it gives, or with the fault at `start`. -/
def Ends (token : α → Option (TokenKind × String)) (start : Pos) (s : Scan) (raw cs : List Char)
    (cut : Lexeme.Cut) (told : Except Halt (α × Scan)) : Prop :=
  match cut with
  | .ok (l, rest) => ∃ taken a, l = ⟨raw.reverse ++ taken, token a⟩ ∧ cs = taken ++ rest ∧
      told = .ok (a, s.behind taken)
  | .error f => told = .error (.issue ⟨start, f⟩)

theorem Ends.back {token : α → Option (TokenKind × String)} {start : Pos} {cut : Lexeme.Cut}
    {told : Except Halt (α × Scan)} (h : Ends token start (s.behind [c]) (c :: raw) cs cut told) :
    Ends token start s raw (c :: cs) cut told := by
  cases cut with
  | error f => exact h
  | ok p =>
    obtain ⟨taken, a, hl, rfl, htold⟩ := h
    refine ⟨c :: taken, a, by simpa using hl, rfl, ?_⟩
    rw [htold, ← Scan.behind_append]
    rfl

theorem ends_string (start : Pos) (h : s.Ahead cs) (hn : cs.length < n) (raw text : List Char) :
    Ends (fun t => some (.string, String.ofList t)) start s raw cs (Lexeme.stringFrom raw text cs)
      ((string start n text).run s) := by
  induction n generalizing s cs raw text with
  | zero => omega
  | succ n ih =>
    unfold string
    rw [run_step (run_more h), Lexeme.stringFrom.eq_def]
    cases cs with
    | nil => rfl
    | cons c cs =>
      simp only [List.length_cons] at hn
      simp only [List.isEmpty_cons, Bool.not_false, if_true]
      rw [run_step (run_peek h 0), List.getD_cons_zero]
      by_cases hline : c = '\n'
      · rw [if_pos hline, if_pos hline]
        rfl
      · rw [if_neg hline, if_neg hline, run_step (run_advance h)]
        by_cases hquote : c = '"'
        · rw [if_pos hquote, if_pos hquote]
          exact ⟨[c], text.reverse, by simp, rfl, rfl⟩
        · rw [if_neg hquote, if_neg hquote]
          by_cases hback : c = '\\'
          · -- the escaped character may be missing
            rw [if_pos hback, if_pos hback, run_step (run_more h.behind_cons)]
            cases cs with
            | nil => rfl
            | cons d cs =>
              simp only [List.length_cons] at hn
              simp only [List.isEmpty_cons, Bool.not_false, if_true]
              rw [run_step (run_advance h.behind_cons)]
              cases hd : Lexeme.unescape? d with
              | none => rfl
              | some e => exact (ih h.behind_cons.behind_cons (by omega) _ _).back.back
          · rw [if_neg hback, if_neg hback]
            exact (ih h.behind_cons (by omega) _ _).back

theorem ends_comment (start : Pos) (h : s.Ahead cs) (hn : cs.length < n) (depth : Nat)
    (raw : List Char) : Ends (fun _ => none) start s raw cs (Lexeme.commentFrom depth raw cs)
      ((comment start n (depth + 1)).run s) := by
  induction n generalizing s cs raw depth with
  | zero => omega
  | succ n ih =>
    unfold comment
    rw [run_step (run_more h), Lexeme.commentFrom.eq_def]
    cases cs with
    | nil => rfl
    | cons c cs =>
      cases cs with
      | nil =>
        -- the last character is taken before the end is noticed
        simp only [List.isEmpty_cons, Bool.not_false, if_true]
        have hd : [c].getD 1 '\x00' = '\x00' := rfl
        rw [run_step (run_peek h 0), run_step (run_peek h 1), hd, if_neg fun hc => absurd hc.2 (by decide),
          if_neg fun hc => absurd hc.2 (by decide), run_step (run_advance h)]
        exact ih h.behind_cons (by simpa using hn) depth raw
      | cons d cs =>
        simp only [List.length_cons] at hn
        simp only [List.isEmpty_cons, Bool.not_false, if_true]
        rw [run_step (run_peek h 0), run_step (run_peek h 1), List.getD_cons_zero,
          List.getD_cons_succ, List.getD_cons_zero]
        by_cases hopen : c = '{' ∧ d = '-'
        · rw [if_pos hopen, if_pos hopen, run_step (run_advance h), run_step (run_advance h.behind_cons)]
          exact (ih h.behind_cons.behind_cons (by omega) _ _).back.back
        · rw [if_neg hopen, if_neg hopen]
          by_cases hclose : c = '-' ∧ d = '}'
          · rw [if_pos hclose, if_pos hclose, run_step (run_advance h), run_step (run_advance h.behind_cons)]
            cases depth with
            | zero => exact ⟨[c, d], (), by simp [Lexeme.blank], rfl, by rw [← Scan.behind_append]; rfl⟩
            | succ depth => exact (ih h.behind_cons.behind_cons (by omega) _ _).back.back
          · rw [if_neg hclose, if_neg hclose, run_step (run_advance h)]
            exact (ih h.behind_cons (by simp; omega) _ _).back

theorem run_emit (kind : TokenKind) (text : List Char) (hline : '\n' ∉ raw) :
    (emit kind text s.pos).run (s.behind raw) =
      .ok ((), s.taking ⟨raw, some (kind, String.ofList text)⟩) := by
  have hfresh : (s.behind raw).fresh = s.fresh := by
    simp [Scan.behind, hline]
  have hrun : (emit kind text s.pos).run (s.behind raw) = .ok ((), { s.behind raw with
      tokens := (s.behind raw).tokens ++ [⟨kind, String.ofList text, s.pos, (s.behind raw).fresh⟩],
      fresh := false }) := rfl
  rw [hrun, hfresh]
  rfl

theorem Ends.blank {cut : Lexeme.Cut} {told : Except Halt (Unit × Scan)}
    (h : Ends (fun _ => none) s.pos s [] cs cut told) : told = s.cutting cut := by
  cases cut with
  | error f => exact h
  | ok p =>
    obtain ⟨l, rest⟩ := p
    obtain ⟨taken, _, rfl, -, htold⟩ := h
    exact htold

theorem run_single (kind : TokenKind) (hc : c ≠ '\n') (h : s.Ahead (c :: cs)) :
    (single kind s.pos).run s = .ok ((), s.taking (.token kind [c])) := by
  unfold single
  rw [run_step (run_advance h)]
  exact run_emit kind [c] (by simpa using fun h' => hc h'.symm)

theorem run_token {p : Char → Bool} (kind : List Char → TokenKind) (hc : p c = true)
    (hline : p '\n' = false) (h : s.Ahead (c :: cs)) (hn : cs.length + 1 < n) :
    (do
      let word ← stretch n p []
      emit (kind word) word s.pos : Scanner Unit).run s =
      .ok ((), s.taking (.token (kind (c :: cs.takeWhile p)) (c :: cs.takeWhile p))) := by
  rw [run_step (run_word hc h hn)]
  refine run_emit _ _ ?_
  have hne := Lexeme.ne_line_of_class hline hc
  simpa [Lexeme.not_line_takeWhile hline] using hne

/-- Two dashes or more start a comment up to the end of the line. -/
theorem run_symbols (hc : isSymbol c = true) (h : s.Ahead (c :: cs)) (hn : cs.length + 1 < n) :
    (do
      let symbols ← stretch n isSymbol []
      if 2 ≤ symbols.length && symbols.all (· == '-') then
        let _ ← stretch n (· != '\n') []
      else emit (.ofSymbols (String.ofList symbols)) symbols s.pos : Scanner Unit).run s =
      .ok ((), s.taking (Lexeme.symbols c cs).1) := by
  rw [run_step (run_word hc h hn)]
  unfold Lexeme.symbols
  simp only
  by_cases hdashes : (2 ≤ (c :: cs.takeWhile isSymbol).length &&
      (c :: cs.takeWhile isSymbol).all (· == '-')) = true
  · have hrest := length_dropWhile_le isSymbol cs
    rw [if_pos hdashes, if_pos hdashes, run_step (run_stretch _ [] h.word (by omega)),
      ← Scan.behind_append]
    rfl
  · rw [if_neg hdashes, if_neg hdashes]
    refine run_emit _ _ ?_
    have hne := Lexeme.ne_line_of_class (by decide) hc
    simpa [Lexeme.not_line_takeWhile (p := isSymbol) (by decide)] using hne

theorem run_round (h : s.Ahead (c :: cs)) (hn : cs.length + 1 < n) :
    (round n).run s = s.cutting (Lexeme.next c cs) := by
  have hsecond : ((c :: cs).getD 1 '\x00' = '-') = (cs.head? = some '-') := by
    cases cs <;> simp
  have hget : (get : Scanner Scan).run s = .ok (s, s) := rfl
  unfold round
  rw [run_step (run_peek h 0), run_step (run_peek h 1), run_step hget, List.getD_cons_zero]
  simp only [hsecond]
  fun_cases Lexeme.next c cs with
  | case1 hb =>
    rw [if_pos hb, run_step (run_advance h)]
    rfl
  | case2 hb hcomment =>
    obtain ⟨rfl, hhead⟩ := hcomment
    obtain ⟨cs, rfl⟩ : ∃ cs', cs = '-' :: cs' := by
      cases cs with
      | nil => cases hhead
      | cons d cs => exact ⟨cs, by rw [Option.some.inj hhead]⟩
    simp only [List.length_cons] at hn
    rw [if_neg hb, if_pos ⟨rfl, rfl⟩, run_step (run_advance h), run_step (run_advance h.behind_cons)]
    exact (ends_comment s.pos h.behind_cons.behind_cons (by omega) 0 _).back.back.blank
  | case3 hb hcomment hstart =>
    rw [if_neg hb, if_neg hcomment, if_pos hstart]
    exact run_token (fun word => .ofWord (String.ofList word)) (isIdentPart_of_identStart hstart)
      (by decide) h hn
  | case4 hb hcomment hstart hupper =>
    have hrest := length_dropWhile_le isIdentPart cs
    rw [if_neg hb, if_neg hcomment, if_neg hstart, if_pos hupper,
      run_step (run_word (isIdentPart_of_upper hupper) h hn),
      run_step (run_qualified _ h.word (show (cs.dropWhile isIdentPart).length < n by omega)),
      ← Scan.behind_append]
    refine run_emit _ _ ?_
    have hne := Lexeme.ne_line_of_class (by decide) hupper
    have hpart := Lexeme.not_line_takeWhile (p := isIdentPart) (by decide) cs
    simpa [hpart, (Lexeme.dotted_split _).2.1] using hne
  | case5 hb hcomment hstart hupper hdigit =>
    rw [if_neg hb, if_neg hcomment, if_neg hstart, if_neg hupper, if_pos hdigit]
    exact run_token (fun _ => .int) hdigit (by decide) h hn
  | case6 hb hcomment hstart hupper hdigit hquote =>
    have hnext : Lexeme.next c cs = Lexeme.stringFrom ['"'] [] cs := by
      rw [Lexeme.next, if_neg hb, if_neg hcomment, if_neg hstart, if_neg hupper, if_neg hdigit,
        if_pos hquote]
    have hends := (ends_string s.pos h.behind_cons (by omega : cs.length < n) [c] []).back
    rw [if_neg hb, if_neg hcomment, if_neg hstart, if_neg hupper, if_neg hdigit, if_pos hquote,
      run_step (run_advance h)]
    rw [hquote] at hends hnext ⊢
    cases hcut : Lexeme.stringFrom ['"'] [] cs with
    | error f =>
      rw [hcut] at hends
      rw [run_bind, hends]
      rfl
    | ok p =>
      obtain ⟨l, rest⟩ := p
      rw [hcut] at hends hnext
      obtain ⟨taken, t, rfl, -, hrun⟩ := hends
      -- a string stands on one line, so that it starts that line if the quote does
      have hline := ((Lexeme.faithful_next hnext).2.token _ rfl).2.2
      rw [run_step hrun]
      exact run_emit .string t hline
  | case7 hb hcomment hstart hupper hdigit hquote hopen =>
    rw [if_neg hb, if_neg hcomment, if_neg hstart, if_neg hupper, if_neg hdigit, if_neg hquote,
      if_pos hopen]
    exact run_single _ (by rw [hopen]; decide) h
  | case8 hb hcomment hstart hupper hdigit hquote hopen hclose =>
    rw [if_neg hb, if_neg hcomment, if_neg hstart, if_neg hupper, if_neg hdigit, if_neg hquote,
      if_neg hopen, if_pos hclose]
    exact run_single _ (by rw [hclose]; decide) h
  | case9 hb hcomment hstart hupper hdigit hquote hopen hclose hcomma =>
    rw [if_neg hb, if_neg hcomment, if_neg hstart, if_neg hupper, if_neg hdigit, if_neg hquote,
      if_neg hopen, if_neg hclose, if_pos hcomma]
    exact run_single _ (by rw [hcomma]; decide) h
  | case10 hb hcomment hstart hupper hdigit hquote hopen hclose hcomma hsemi =>
    rw [if_neg hb, if_neg hcomment, if_neg hstart, if_neg hupper, if_neg hdigit, if_neg hquote,
      if_neg hopen, if_neg hclose, if_neg hcomma, if_pos hsemi]
    exact run_single _ (by rw [hsemi]; decide) h
  | case11 hb hcomment hstart hupper hdigit hquote hopen hclose hcomma hsemi hsymbol =>
    rw [if_neg hb, if_neg hcomment, if_neg hstart, if_neg hupper, if_neg hdigit, if_neg hquote,
      if_neg hopen, if_neg hclose, if_neg hcomma, if_neg hsemi, if_pos hsymbol]
    exact run_symbols hsymbol h hn
  | case12 hb hcomment hstart hupper hdigit hquote hopen hclose hcomma hsemi hsymbol =>
    rw [if_neg hb, if_neg hcomment, if_neg hstart, if_neg hupper, if_neg hdigit, if_neg hquote,
      if_neg hopen, if_neg hclose, if_neg hcomma, if_neg hsemi, if_neg hsymbol]
    rfl

theorem run_rounds (done : List Lexeme) (h : s.Ahead cs) (hn : cs.length + 1 < n) :
    ∃ ls f, Lexeme.scanFrom done cs = (done.reverse ++ ls, f) ∧
      (rounds n).run s = s.cuttingAll (ls, f) := by
  obtain ⟨n, rfl⟩ : ∃ k, n = k + 1 := ⟨n - 1, by omega⟩
  fun_induction Lexeme.scanFrom done cs generalizing s n with
  | case1 done =>
    refine ⟨[], none, by simp, ?_⟩
    unfold rounds
    rw [run_step (run_more h)]
    rfl
  | case2 done c cs f hnext =>
    simp only [List.length_cons] at hn
    refine ⟨[], some f, by simp, ?_⟩
    unfold rounds
    rw [run_step (run_more h)]
    simp only [List.isEmpty_cons, Bool.not_false, if_true]
    rw [run_bind, run_round h (by omega), hnext]
    rfl
  | case3 done c cs l rest hnext hlen ih =>
    simp only [List.length_cons] at hn
    obtain ⟨n, rfl⟩ : ∃ k, n = k + 1 := ⟨n - 1, by omega⟩
    have hsplit := (Lexeme.faithful_next hnext).1
    obtain ⟨ls, f, hscan, hrun⟩ := ih (hsplit ▸ h).taking n (by omega)
    refine ⟨l :: ls, f, by simpa using hscan, ?_⟩
    have hround : (round (n + 1)).run s = .ok ((), s.taking l) := by
      rw [run_round h (by omega), hnext]
      rfl
    have hstep : (rounds (n + 1 + 1)).run s = (rounds (n + 1)).run (s.taking l) := by
      rw [rounds, run_step (run_more h)]
      simp only [List.isEmpty_cons, Bool.not_false, if_true]
      exact run_step hround
    rw [hstep, hrun, Scan.cuttingAll_cons]

end Scanner

theorem lex_eq {n : Nat} {source text : String} (hn : text.toList.length + 1 < n) :
    lex n source text = .ok (match Lexed.ofText source text with
      | .ok x => .ok (x.tokens ++ [.eof x.stop])
      | .error e => .error e) := by
  have hahead : Scan.Ahead { src := text.toList } text.toList := ⟨[], rfl, rfl⟩
  obtain ⟨ls, f, hscan, hrun⟩ := Scanner.run_rounds [] hahead hn
  have hscan : Lexeme.scan text.toList = (ls, f) := by simpa [Lexeme.scan] using hscan
  unfold lex Lexed.ofText
  rw [hrun, hscan]
  cases f with
  | some f => rfl
  | none =>
    have htokens : (ls.foldl Scan.taking { src := text.toList }).tokens = Lexeme.tokens ls := by
      rw [Scan.tokens_taking, Lexeme.tokens, Lexeme.tokensFrom_eq]
      rfl
    simp only [Scan.cuttingAll, htokens, Scan.pos_takingAll]
    rcases List.eq_nil_or_concat (Lexeme.tokens ls) with hnil | ⟨front, last, hlast⟩
    · rw [hnil]
      rfl
    · rw [hlast, List.concat_eq_append, List.getLast?_concat, index_last, if_pos (by simp)]
      rfl

end Indexed

end LazySession

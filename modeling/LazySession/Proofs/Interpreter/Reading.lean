import LazySession.Proofs.Act
import LazySession.Proofs.Loader.Sharing
import LazySession.Proofs.Scope.Search

/-!
# Texts are read as if there were no cache

The cache holds readings under keys made of the kind, the source and the text. As no source that is
used for fragments has a NUL in its name, a key tells the source from the text, and what is found
under it is the reading of that text: `Interpreter.readFragment_eq`.
-/

namespace LazySession

/-! ## Keys -/

namespace Interpreter

/-- The name of a source that a key can tell from the text behind it. -/
def Plain (source : String) : Prop := '\x00' ∉ source.toList

theorem plain_fragmentSource : Plain fragmentSource := by
  unfold Plain
  decide

theorem plain_definitionSource (n : Nat) : Plain (definitionSource n) := by
  unfold Plain definitionSource
  rw [Nat.toString_eq_ofList_toDigits]
  simp only [String.toList_append, String.toList_ofList, List.mem_append, not_or]
  refine ⟨⟨by decide, fun hm => ?_⟩, by decide⟩
  have hdigit := Nat.isDigit_of_mem_toDigits (by decide) (by decide) hm
  simp at hdigit

theorem definitionSource_ne {s : String} (h : s = "" ∨ s = fragmentSource) (n : Nat) :
    s ≠ definitionSource n := by
  intro he
  have hlist := congrArg (fun s => s.toList.take 2) he
  rcases h with rfl | rfl
  · simp [definitionSource] at hlist
  · simp [definitionSource, fragmentSource] at hlist

theorem definitionSource_inj {m n : Nat} (h : definitionSource m = definitionSource n) : m = n := by
  have hdigits := congrArg String.toList h
  simp only [definitionSource, String.toList_append, List.append_assoc, List.append_cancel_left_eq,
    List.append_cancel_right_eq, Nat.toString_eq_ofList_toDigits, String.toList_ofList] at hdigits
  have hvalue := congrArg (Nat.ofDigitChars 10 · 0) hdigits
  simp only [Nat.ofDigitChars_ten_toDigits] at hvalue
  exact Nat.succ.inj hvalue

theorem append_cons_inj {α : Type} {x : α} {as as' bs bs' : List α} (h : x ∉ as) (h' : x ∉ as')
    (he : as ++ x :: bs = as' ++ x :: bs') : as = as' ∧ bs = bs' := by
  rcases List.append_eq_append_iff.mp he with ⟨cs, rfl, hcs⟩ | ⟨cs, rfl, hcs⟩
  · rcases List.cons_eq_append_iff.mp hcs with ⟨rfl, hbs⟩ | ⟨ds, rfl, -⟩
    · simp_all
    · simp at h'
  · rcases List.cons_eq_append_iff.mp hcs with ⟨rfl, hbs⟩ | ⟨ds, rfl, -⟩
    · simp_all
    · simp at h

theorem cacheKey_inj {kind source source' text text' : String} (hs : Plain source)
    (hs' : Plain source') (h : cacheKey kind source text = cacheKey kind source' text') :
    source = source' ∧ text = text' := by
  have hl := congrArg String.toList h
  simp only [cacheKey, String.toList_append, List.append_assoc, List.append_cancel_left_eq] at hl
  obtain ⟨hsource, htext⟩ := append_cons_inj hs hs' hl
  exact ⟨String.toList_inj.mp hsource, String.toList_inj.mp htext⟩

theorem cacheKey_ne (source source' text text' : String) :
    cacheKey "module" source text ≠ cacheKey "fragment" source' text' := by
  intro h
  have hl := congrArg (·.toList.head?) h
  simp [cacheKey] at hl

end Interpreter

/-! ## Readings -/

namespace Interpreter

/-- Everything that is held is a reading, and what is held for a fragment is its own. -/
def Faithful (c : Cache Parsed) : Prop :=
  c.Each fun key a => IsReading a ∧ ∀ source text, Plain source →
    key = cacheKey "fragment" source text → a = Fragment.ofText source text

variable {c : Cache Parsed}

theorem Faithful.all (h : Faithful c) : c.All IsReading := fun p hp => (h p hp).1

theorem faithful_empty {c : Cache Parsed} (h : c.entries = []) : Faithful c := by
  intro p hp
  rw [h] at hp
  cases hp

theorem faithful_readModule (h : Faithful c) (source text : String) :
    Faithful (readModule source text c).2 := by
  refine (Cache.Each.memo h _ _ ⟨⟨source, text, .inr rfl⟩, fun _ _ _ he => ?_⟩).2
  exact absurd he (cacheKey_ne _ _ _ _)

theorem readFragment_eq (h : Faithful c) {source : String} (hs : Plain source) (text : String) :
    (readFragment source text c).1 = Fragment.ofText source text ∧
      Faithful (readFragment source text c).2 := by
  have hmemo := Cache.Each.memo h (cacheKey "fragment" source text)
    (fun _ => Fragment.ofText source text) ⟨⟨source, text, .inl rfl⟩, fun source' text' hs' he => by
      obtain ⟨rfl, rfl⟩ := cacheKey_inj hs hs' he
      rfl⟩
  exact ⟨hmemo.1.2 source text hs rfl, hmemo.2⟩

/-- Texts have been read, and it may have been asked whether to stop: the cache stays faithful, and
nothing else changes but the patience. -/
def Reads (w w' : World) : Prop :=
  ∃ cache patience, Faithful cache ∧ (w.context.patience = .endless → patience = .endless) ∧
    w' = { w with cache, context := { w.context with patience } }

theorem reads_cache {w : World} {cache : Cache Parsed} (h : Faithful cache) :
    Reads w { w with cache } :=
  ⟨cache, w.context.patience, h, fun h => h, rfl⟩

theorem Reads.trans {w w' w'' : World} (h : Reads w w') (h' : Reads w' w'') : Reads w w'' := by
  obtain ⟨_, _, _, hp, rfl⟩ := h
  obtain ⟨cache, patience, hc, hp', rfl⟩ := h'
  exact ⟨cache, patience, hc, fun h => hp' (hp h), rfl⟩

theorem Reads.faithful {w w' : World} (h : Reads w w') : Faithful w'.cache := by
  obtain ⟨_, _, hc, _, rfl⟩ := h
  exact hc

theorem Reads.endless {w w' : World} (h : Reads w w') (hw : w.context.patience = .endless) :
    w'.context.patience = .endless := by
  obtain ⟨_, _, _, hp, rfl⟩ := h
  exact hp hw

theorem Reads.closed {w w' : World} (h : Reads w w') : w'.context.closed = w.context.closed := by
  obtain ⟨_, _, _, _, rfl⟩ := h
  rfl

/-- The program that a text is. -/
def programOf (text : String) : Program := ⟨text, Fragment.ofText fragmentSource text⟩

theorem run_interpret {w : World} (hw : Faithful w.cache) (text : String) :
    ∃ w', Reads w w' ∧ (interpret text).run w = (.ok (programOf text), w') := by
  obtain ⟨he, hf⟩ := readFragment_eq hw plain_fragmentSource text
  refine ⟨{ w with cache := (readFragment fragmentSource text w.cache).2 }, reads_cache hf, ?_⟩
  rw [programOf, ← he]
  rfl

/-- The definitions of a session as pieces, and what is wrong with them; `n` is the number of the
first. -/
def pieces (n : Nat) : List String → List Piece × List Diagnostic
  | [] => ([], [])
  | text :: texts =>
    match Fragment.ofText (definitionSource n) text with
    | .error es => ((pieces (n + 1) texts).1, es.map .ofSyntaxError ++ (pieces (n + 1) texts).2)
    | .ok (.definitions decls) =>
      (⟨definitionSource n, decls⟩ :: (pieces (n + 1) texts).1, (pieces (n + 1) texts).2)
    | .ok f => ((pieces (n + 1) texts).1,
      ⟨definitionSource n, ⟨0, 0⟩, .notDefinitions f.kind⟩ :: (pieces (n + 1) texts).2)

theorem pieces_append (texts more : List String) : ∀ {n : Nat} {ps qs : List Piece},
    pieces n texts = (ps, []) → pieces (n + texts.length) more = (qs, []) →
    pieces n (texts ++ more) = (ps ++ qs, []) := by
  induction texts with
  | nil =>
    rintro n ps qs ⟨⟩ hq
    exact hq
  | cons text texts ih =>
    intro n ps qs hp hq
    rw [List.length_cons, ← Nat.add_assoc, Nat.add_right_comm] at hq
    unfold pieces at hp
    rw [List.cons_append, pieces]
    split at hp <;> rename_i hread
    · have hnil := List.append_eq_nil_iff.mp (Prod.mk.inj hp).2
      exact absurd (List.map_eq_nil_iff.mp hnil.1) (Fragment.ofText_error hread)
    · obtain ⟨rfl, hds⟩ := Prod.mk.inj hp
      rw [ih (Prod.ext rfl hds) hq, List.cons_append]
    · cases (Prod.mk.inj hp).2

theorem definitions_of_pieces {texts : List String} : ∀ {n : Nat} {ps : List Piece},
    pieces n texts = (ps, []) → ∀ t ∈ texts, ∃ source decls,
      Fragment.ofText source t = .ok (.definitions decls) := by
  induction texts with
  | nil => exact fun _ => nofun
  | cons text texts ih =>
    intro n ps h t ht
    unfold pieces at h
    split at h
    · rename_i es hes
      have hnil := List.append_eq_nil_iff.mp (Prod.mk.inj h).2
      exact absurd (List.map_eq_nil_iff.mp hnil.1) (Fragment.ofText_error hes)
    · rename_i decls hdecls
      rcases List.mem_cons.mp ht with rfl | ht
      · exact ⟨_, _, hdecls⟩
      · exact ih (n := n + 1) (Prod.ext rfl (Prod.mk.inj h).2) t ht
    · cases (Prod.mk.inj h).2

/-- The definitions are read as pieces from any cache with `P`, if fragments are read so and `P` is
kept. -/
theorem readDefinitions_of {P : Cache Parsed → Prop}
    (hP : ∀ c source text, P c → Plain source →
      (readFragment source text c).1 = Fragment.ofText source text ∧
        P (readFragment source text c).2) (texts : List String) :
    ∀ (c : Cache Parsed) (n : Nat), P c →
      (readDefinitions c n texts).1 = pieces n texts ∧ P (readDefinitions c n texts).2 := by
  induction texts with
  | nil => exact fun c n hc => ⟨rfl, hc⟩
  | cons text texts ih =>
    intro c n hc
    obtain ⟨he, hc₁⟩ := hP c _ text hc (plain_definitionSource n)
    obtain ⟨hrest, hc₂⟩ := ih _ (n + 1) hc₁
    unfold readDefinitions pieces
    rw [← he, ← hrest]
    simp only
    generalize readFragment (definitionSource n) text c = q at hc₂ ⊢
    obtain ⟨parsed, c₁⟩ := q
    generalize readDefinitions c₁ (n + 1) texts = q' at hc₂ ⊢
    obtain ⟨⟨ps, ds⟩, c₂⟩ := q'
    rcases parsed with es | _ | _ | _ <;> exact ⟨rfl, hc₂⟩

theorem readDefinitions_eq (texts : List String) (c : Cache Parsed) (n : Nat) (hc : Faithful c) :
    (readDefinitions c n texts).1 = pieces n texts ∧ Faithful (readDefinitions c n texts).2 :=
  readDefinitions_of (fun _ _ text hc hs => readFragment_eq hc hs text) texts c n hc

theorem run_definitionPieces {w : World} (hw : Faithful w.cache) (history : History) :
    ∃ w', Reads w w' ∧
      (definitionPieces history).run w = (.ok (pieces 0 history.program), w') := by
  obtain ⟨he, hf⟩ := readDefinitions_eq history.program w.cache 0 hw
  refine ⟨{ w with cache := (readDefinitions w.cache 0 history.program).2 }, reads_cache hf, ?_⟩
  rw [← he]
  rfl

/-! ## Searches -/

theorem stable_faithful (locator : Locator) :
    Search.Stable locator fun s => Faithful s.cache where
  read _ source text h := faithful_readModule h source text
  found _ _ _ _ _ _ _ _ _ h := h

end Interpreter

end LazySession

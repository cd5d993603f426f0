import LazySession.Proofs.Lang.Lexing

/-!
# Letters of either case

A name goes on with any character that one can start with: `isIdentPart_of_upper` and
`isIdentPart_of_identStart`. The tables of upper-case, of lower-case and of all letters agree in that.
-/

namespace LazySession

open Text

namespace Text.CharRange

variable {r s : CharRange} {rs ss : List CharRange} {c : Char}

/-- Every code point of the first range is in the second one, as the bounds and the steps show. -/
def within (r s : CharRange) : Bool :=
  s.lo ≤ r.lo && r.hi ≤ s.hi &&
    (s.step == 1 || (s.step == r.step && (r.lo - s.lo) % s.step == 0))

/-- Every code point of the range is in one of the others. -/
def covered (r : CharRange) (rs : List CharRange) : Bool :=
  rs.any r.within ||
    (List.range (r.hi + 1 - r.lo)).all fun k => !r.holds (r.lo + k) || rs.any (·.holds (r.lo + k))

/-- Every range is covered by a few of the others. Both tables are in order, so what ends in front of
one range is of no use to those behind it. -/
def coveredAll : (rs ss : List CharRange) → Bool
  | [], _ => true
  | r :: rs, ss =>
    let near := ss.dropWhile fun s => s.hi < r.lo
    r.covered (near.take 4) && coveredAll rs near

theorem holds_of_within {n : Nat} (h : r.within s = true) (hn : r.holds n = true) :
    s.holds n = true := by
  simp only [within, holds, Bool.and_eq_true, Bool.or_eq_true, decide_eq_true_eq, beq_iff_eq] at h hn ⊢
  obtain ⟨⟨hlo, hhi⟩, hstep⟩ := h
  obtain ⟨⟨hlo', hhi'⟩, hmod⟩ := hn
  refine ⟨⟨by omega, by omega⟩, ?_⟩
  rcases hstep with hone | ⟨hsame, hoff⟩
  · rw [hone, Nat.mod_one]
  · have hsplit : n - s.lo = (n - r.lo) + (r.lo - s.lo) := by omega
    rw [hsplit, Nat.add_mod, hoff, hsame, hmod]
    simp

theorem anyContains_of_covered (h : r.covered rs = true) (hc : r.contains c = true) :
    anyContains rs c = true := by
  have hn : r.holds c.toNat = true := hc
  unfold covered at h
  rw [Bool.or_eq_true] at h
  rcases h with h | h
  · obtain ⟨s, hs, hwithin⟩ := List.any_eq_true.mp h
    exact List.any_eq_true.mpr ⟨s, hs, holds_of_within hwithin hn⟩
  · have hbounds := hn
    simp only [holds, Bool.and_eq_true, decide_eq_true_eq] at hbounds
    have hat := List.all_eq_true.mp h (c.toNat - r.lo) (List.mem_range.mpr (by omega))
    rw [Nat.add_sub_cancel' hbounds.1.1, hn] at hat
    exact hat

theorem anyContains_of_subset (hsub : rs ⊆ ss) (h : anyContains rs c = true) :
    anyContains ss c = true := by
  obtain ⟨r, hr, hc⟩ := List.any_eq_true.mp h
  exact List.any_eq_true.mpr ⟨r, hsub hr, hc⟩

theorem anyContains_of_coveredAll (h : coveredAll rs ss = true) (hc : anyContains rs c = true) :
    anyContains ss c = true := by
  induction rs generalizing ss with
  | nil => cases hc
  | cons r rs ih =>
    have hnear := List.dropWhile_subset (l := ss) fun s => decide (s.hi < r.lo)
    simp only [coveredAll, Bool.and_eq_true] at h
    simp only [anyContains, List.any_cons, Bool.or_eq_true] at hc
    rcases hc with hc | hc
    · have hfew := anyContains_of_covered h.1 hc
      exact anyContains_of_subset (List.Subset.trans (List.take_subset _ _) hnear) hfew
    · exact anyContains_of_subset hnear (ih h.2 hc)

end Text.CharRange

theorem Text.upper_letters : CharRange.coveredAll upperRanges letterRanges = true := by
  decide +kernel

theorem Text.lower_letters : CharRange.coveredAll lowerRanges letterRanges = true := by
  decide +kernel

theorem Text.letter_of_upper {c : Char} (h : isUpper c = true) : isLetter c = true := by
  unfold isUpper at h
  unfold isLetter
  by_cases hascii : c.toNat < 128
  · rw [if_pos hascii] at h ⊢
    rw [h, Bool.or_true]
  · rw [if_neg hascii] at h ⊢
    exact CharRange.anyContains_of_coveredAll upper_letters h

theorem Text.letter_of_lower {c : Char} (h : isLower c = true) : isLetter c = true := by
  unfold isLower at h
  unfold isLetter
  by_cases hascii : c.toNat < 128
  · rw [if_pos hascii] at h ⊢
    rw [h, Bool.true_or]
  · rw [if_neg hascii] at h ⊢
    exact CharRange.anyContains_of_coveredAll lower_letters h

theorem isIdentPart_of_upper {c : Char} (h : isUpper c = true) : isIdentPart c = true := by
  simp [isIdentPart, letter_of_upper h]

theorem isIdentPart_of_identStart {c : Char} (h : isIdentStart c = true) : isIdentPart c = true := by
  unfold isIdentStart at h
  rw [Bool.or_eq_true] at h
  rcases h with h | h
  · simp [isIdentPart, h]
  · simp [isIdentPart, letter_of_lower h]

end LazySession

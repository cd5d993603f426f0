import LazySession.Locate.Locator

/-!
# The files of modules stay below their roots

A path that passes the check has no elements that lead anywhere but down, so that cleaning it does not
change it: `Path.confined_of_check`. All that is found is therefore found where its name says:
`Locator.find_ok`.
-/

namespace LazySession

/-! ## Splitting and joining -/

namespace Text

variable {sep : Char}

theorem splitFrom_done (cs : List Char) : ∀ (piece : List Char) (done : List String),
    splitFrom sep piece done cs = done.reverse ++ splitFrom sep piece [] cs := by
  induction cs with
  | nil => intro piece done; simp [splitFrom]
  | cons c cs ih =>
    intro piece done
    unfold splitFrom
    split
    · rw [ih, ih _ [_]]
      simp
    · exact ih _ _

theorem splitFrom_ne_nil (piece cs : List Char) : splitFrom sep piece [] cs ≠ [] := by
  induction cs generalizing piece with
  | nil => simp [splitFrom]
  | cons c cs ih =>
    unfold splitFrom
    split
    · rw [splitFrom_done]
      simp
    · exact ih _

theorem join_cons (s : String) {ss : List String} (h : ss ≠ []) (between : String) :
    join between (s :: ss) = s ++ between ++ join between ss := by
  obtain ⟨t, rest, rfl⟩ := List.exists_cons_of_ne_nil h
  rfl

theorem join_splitFrom (piece cs : List Char) :
    join (String.singleton sep) (splitFrom sep piece [] cs) = String.ofList (piece.reverse ++ cs) := by
  induction cs generalizing piece with
  | nil => simp [splitFrom, join]
  | cons c cs ih =>
    unfold splitFrom
    split
    · rename_i hc
      rw [splitFrom_done, List.reverse_singleton, List.singleton_append,
        join_cons _ (splitFrom_ne_nil _ _), ih, ← String.toList_inj]
      simp [hc]
    · rw [ih]
      simp

theorem join_split (sep : Char) (s : String) : join (String.singleton sep) (split sep s) = s := by
  rw [split, join_splitFrom, List.reverse_nil, List.nil_append, String.ofList_toList]

end Text

/-! ## Paths -/

namespace Path

/-- An element that leads down. -/
def Down (e : String) : Prop := e ≠ "" ∧ e ≠ "." ∧ e ≠ ".."

/-- The path leads down from wherever it starts, and there is no shorter way to write it. -/
structure Confined (path : String) : Prop where
  relative : path.toList.head? ≠ some '/'
  elements : ∀ e ∈ Text.split '/' path, Down e
  clean : Path.clean path = path
  below : ∀ base, absolute base path = base ++ Text.split '/' path

theorem cleanElements_down {es : List String} (h : ∀ e ∈ es, Down e) (rooted : Bool) :
    ∀ done, cleanElements rooted done es = done.reverse ++ es := by
  induction es with
  | nil => intro done; simp [cleanElements]
  | cons e es ih =>
    intro done
    obtain ⟨⟨hempty, hdot, hdots⟩, hes⟩ := List.forall_mem_cons.mp h
    rw [cleanElements, if_neg (not_or.mpr ⟨hempty, hdot⟩), if_neg hdots, ih hes]
    simp

theorem confined_of_down {path : String} (h : ∀ e ∈ Text.split '/' path, Down e) : Confined path := by
  have hrelative : path.toList.head? ≠ some '/' := by
    intro hhead
    obtain ⟨cs, hcs⟩ := List.head?_eq_some_iff.mp hhead
    have hmem : "" ∈ Text.split '/' path := by
      rw [Text.split, hcs, Text.splitFrom, if_pos rfl, Text.splitFrom_done]
      simp
    exact (h "" hmem).1 rfl
  refine ⟨hrelative, h, ?_, fun base => ?_⟩
  · obtain ⟨e, es, hes⟩ := List.exists_cons_of_ne_nil (Text.splitFrom_ne_nil [] path.toList)
    have hjoin : Text.join "/" (Text.split '/' path) = path := Text.join_split '/' path
    rw [clean, if_neg hrelative, cleanElements_down h, Text.split, hes]
    rw [Text.split, hes] at hjoin
    exact hjoin
  · rw [absolute, if_neg hrelative, cleanElements_down h, List.reverse_reverse]

theorem down_of_checkElement {e : String} (h : checkElement e = .ok ()) : Down e := by
  refine ⟨?_, ?_, ?_⟩ <;> rintro rfl <;> cases h

theorem checkElement_of_mem {es : List String} (h : checkElements es = .ok ()) :
    ∀ e ∈ es, checkElement e = .ok () := by
  induction es with
  | nil => nofun
  | cons e es ih =>
    unfold checkElements at h
    cases he : checkElement e with
    | error fault =>
      rw [he] at h
      cases h
    | ok _ =>
      rw [he] at h
      exact List.forall_mem_cons.mpr ⟨he, ih h⟩

theorem checkElements_of_check {path : String} (h : check path = .ok ()) :
    checkElements (Text.split '/' path) = .ok () := by
  unfold check at h
  simp only at h
  split at h
  · cases h
  · split at h
    · cases h
    · split at h
      · cases h
      · exact h

theorem confined_of_check {path : String} (h : check path = .ok ()) : Confined path :=
  confined_of_down fun e he =>
    down_of_checkElement (checkElement_of_mem (checkElements_of_check h) e he)

/-- It is the check that keeps a path from leading up. -/
example : clean "A/../../B.mhs" = "../B.mhs" ∧ (check "A/../../B.mhs").isOk = false := by
  decide +kernel

end Path

/-! ## Names of modules -/

namespace Locator

variable {l : Locator} {name path : String}

/-- The path that a name stands for. -/
def pathOf (l : Locator) (name : String) : String :=
  String.ofList (name.toList.map fun c => if c = '.' then '/' else c) ++ l.ext

theorem pathOf_inj {l : Locator} {m n : String} (hm : '/' ∉ m.toList) (hn : '/' ∉ n.toList)
    (h : l.pathOf m = l.pathOf n) : m = n := by
  have step : ∀ cs ds : List Char, '/' ∉ cs → '/' ∉ ds →
      cs.map (fun c => if c = '.' then '/' else c) = ds.map (fun c => if c = '.' then '/' else c) →
        cs = ds := by
    intro cs
    induction cs with
    | nil =>
      intro ds _ _ h
      exact (List.map_eq_nil_iff.mp h.symm).symm
    | cons c cs ih =>
      intro ds hc hd h
      cases ds with
      | nil => cases h
      | cons d ds =>
        simp only [List.mem_cons, not_or] at hc hd
        simp only [List.map_cons, List.cons.injEq] at h
        have hhead : c = d := by grind
        rw [hhead, ih ds hc.2 hd.2 h.2]
  have hchars := congrArg String.toList h
  simp only [pathOf, String.toList_append, String.toList_ofList, List.append_cancel_right_eq] at hchars
  exact String.toList_inj.mp (step _ _ hm hn hchars)

theorem filePath_ok (h : l.filePath name = .ok path) :
    path = l.pathOf name ∧ Path.check path = .ok () := by
  unfold filePath at h
  split at h
  · cases h
  · simp only at h
    split at h
    · rename_i hc
      rw [← Except.ok.inj h]
      exact ⟨rfl, hc⟩
    · cases h

theorem confined_filePath (h : l.filePath name = .ok path) : Path.Confined path :=
  Path.confined_of_check (filePath_ok h).2

/-- What is found is a source given by name or the file that the name stands for. -/
theorem find_ok {file : SourceFile} (h : l.find name = .ok file) :
    (∃ text, l.overlay.get? name = some text ∧ file = ⟨name, "overlay:" ++ name, text⟩) ∨
      l.overlay.get? name = none ∧ ∃ path text, l.filePath name = .ok path ∧
        findIn path l.roots = .ok (some text) ∧ file = ⟨name, path, text⟩ := by
  unfold find at h
  cases hoverlay : l.overlay.get? name with
  | some text =>
    rw [hoverlay] at h
    cases h
    exact .inl ⟨text, rfl, rfl⟩
  | none =>
    rw [hoverlay] at h
    refine .inr ⟨rfl, ?_⟩
    cases hpath : l.filePath name with
    | error e =>
      rw [hpath] at h
      cases h
    | ok path =>
      simp only [hpath, bind, Except.bind] at h
      cases hfound : findIn path l.roots with
      | error e =>
        rw [hfound] at h
        cases h
      | ok found =>
        rw [hfound] at h
        cases found with
        | none => cases h
        | some text =>
          cases h
          exact ⟨path, text, rfl, hfound, by rw [(confined_filePath hpath).clean]⟩

end Locator

end LazySession

import LazySession.Proofs.Interpreter.Transparent

/-!
# Finding modules

The names that texts have for modules are told apart by their paths, as none has a slash in it:
`Named.no_slash`. Roots are asked one after the other, and the first that does not answer that there
is nothing decides: `Locator.findIn_append`. All of it is in `Locator.finds_in_order`.
-/

namespace LazySession

/-! ## Names in texts -/

/-- The root says that there is nothing at the path. -/
def Root.Lacks (r : Root) (path : String) : Prop := r.tree.read path = .error .missing

namespace Locator

variable {l : Locator} {name path : String}

theorem findIn_append {roots : List Root} (h : ∀ r ∈ roots, r.Lacks path) (more : List Root) :
    findIn path (roots ++ more) = findIn path more := by
  induction roots with
  | nil => rfl
  | cons r roots ih =>
    obtain ⟨hr, hroots⟩ := List.forall_mem_cons.mp h
    rw [List.cons_append, findIn, hr]
    exact ih hroots

theorem findIn_lacking {roots : List Root} (h : ∀ r ∈ roots, r.Lacks path) :
    findIn path roots = .ok none := by
  have happend := findIn_append h []
  rw [List.append_nil] at happend
  exact happend

theorem findIn_of_ok {r : Root} {text : String} (h : r.tree.read path = .ok text) (more : List Root) :
    findIn path (r :: more) = .ok (some text) := by
  rw [findIn, h]

theorem findIn_of_error {r : Root} {fault : ReadFault} (h : r.tree.read path = .error fault)
    (hne : fault ≠ .missing) (more : List Root) :
    findIn path (r :: more) = .error (.unreadable path r.name (r.tree.faultText path fault)) := by
  rw [findIn, h]
  cases fault with
  | missing => exact absurd rfl hne
  | _ => rfl

theorem lacks_of_findIn {roots : List Root} (h : findIn path roots = .ok none) :
    ∀ r ∈ roots, r.Lacks path := by
  induction roots with
  | nil => nofun
  | cons r roots ih =>
    cases hread : r.tree.read path with
    | ok text =>
      rw [findIn_of_ok hread] at h
      cases h
    | error fault =>
      by_cases hf : fault = .missing
      · subst hf
        rw [findIn, hread] at h
        exact List.forall_mem_cons.mpr ⟨hread, ih h⟩
      · rw [findIn_of_error hread hf] at h
        cases h

theorem isNotFound_findIn {roots : List Root} {e : LocateError} (h : findIn path roots = .error e) :
    e.isNotFound = false := by
  induction roots with
  | nil => cases h
  | cons r roots ih =>
    cases hread : r.tree.read path with
    | ok text =>
      rw [findIn_of_ok hread] at h
      cases h
    | error fault =>
      by_cases hf : fault = .missing
      · subst hf
        rw [findIn, hread] at h
        exact ih h
      · rw [findIn_of_error hread hf] at h
        cases h
        rfl

theorem isNotFound_filePath {e : LocateError} (h : l.filePath name = .error e) :
    e.isNotFound = false := by
  unfold filePath at h
  split at h
  · cases h
    rfl
  · simp only at h
    split at h
    · cases h
    · cases h
      rfl

/-! ## The whole search -/

theorem find_eq (hnone : l.overlay.get? name = none) (hpath : l.filePath name = .ok path) :
    l.find name = match findIn path l.roots with
      | .ok (some text) => .ok ⟨name, path, text⟩
      | .ok none => .error (.notFound name l.roots.length path)
      | .error e => .error e := by
  unfold find
  simp only [hnone, hpath, bind, Except.bind, (confined_filePath hpath).clean]
  cases findIn path l.roots with
  | error e => rfl
  | ok found => cases found <;> rfl

theorem find_of_error {e : LocateError} (hnone : l.overlay.get? name = none)
    (h : l.filePath name = .error e) : l.find name = .error e := by
  unfold find
  rw [hnone, h]
  rfl

theorem notFound_iff : (∃ e, l.find name = .error e ∧ e.isNotFound = true) ↔
    l.overlay.get? name = none ∧ ∃ path, l.filePath name = .ok path ∧ ∀ r ∈ l.roots, r.Lacks path := by
  constructor
  · rintro ⟨e, he, hnot⟩
    cases hoverlay : l.overlay.get? name with
    | some text =>
      unfold find at he
      rw [hoverlay] at he
      cases he
    | none =>
      refine ⟨rfl, ?_⟩
      cases hpath : l.filePath name with
      | error e' =>
        obtain rfl := Except.error.inj ((find_of_error hoverlay hpath).symm.trans he)
        rw [isNotFound_filePath hpath] at hnot
        cases hnot
      | ok path =>
        rw [find_eq hoverlay hpath] at he
        refine ⟨path, rfl, lacks_of_findIn ?_⟩
        split at he
        · cases he
        · assumption
        · rename_i hfound
          cases he
          rw [isNotFound_findIn hfound] at hnot
          cases hnot
  · rintro ⟨hnone, path, hpath, hlack⟩
    exact ⟨_, by rw [find_eq hnone hpath, findIn_lacking hlack], rfl⟩

/-- How a locator answers when it is asked for a module. -/
structure Answers (l : Locator) (name : String) : Prop where
  given : ∀ text, l.overlay.get? name = some text →
    l.find name = .ok ⟨name, "overlay:" ++ name, text⟩
  invalid : ∀ e, l.overlay.get? name = none → l.filePath name = .error e → l.find name = .error e
  /-- The file of the first root that has it, whatever there is in later ones. -/
  first : ∀ path before r later text, l.overlay.get? name = none → l.filePath name = .ok path →
    l.roots = before ++ r :: later → (∀ q ∈ before, q.Lacks path) → r.tree.read path = .ok text →
    l.find name = .ok ⟨name, path, text⟩
  /-- A file that is there but cannot be read is told, whatever there is in later roots. -/
  failed : ∀ path before r later fault, l.overlay.get? name = none → l.filePath name = .ok path →
    l.roots = before ++ r :: later → (∀ q ∈ before, q.Lacks path) → r.tree.read path = .error fault →
    fault ≠ .missing →
    l.find name = .error (.unreadable path r.name (r.tree.faultText path fault))
  missing : (∃ e, l.find name = .error e ∧ e.isNotFound = true) ↔ l.overlay.get? name = none ∧
    ∃ path, l.filePath name = .ok path ∧ ∀ r ∈ l.roots, r.Lacks path

theorem answers (l : Locator) (name : String) : l.Answers name where
  given text htext := by
    unfold find
    rw [htext]
  invalid e hnone he := find_of_error hnone he
  first path before r later text hnone hpath hroots hbefore hread := by
    rw [find_eq hnone hpath, hroots, findIn_append hbefore, findIn_of_ok hread]
  failed path before r later fault hnone hpath hroots hbefore hread hne := by
    rw [find_eq hnone hpath, hroots, findIn_append hbefore, findIn_of_error hread hne]
  missing := notFound_iff

/-- A file that cannot be read is not looked for in the next root. -/
example : (find { roots := [⟨"a", { storage := .disk, files := [], locked := [("A.mhs", "denied")] }⟩,
    ⟨"b", { storage := .disk, files := [("A.mhs", "module A where")] }⟩] } "A").isOk = false := by
  decide +kernel

end Locator

end LazySession

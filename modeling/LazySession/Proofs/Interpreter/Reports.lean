import LazySession.Proofs.Interpreter.Transparent
import LazySession.Proofs.Lang.Faults
import LazySession.Proofs.Scope.Loadable

/-!
# The order of reports

A run that rejects a text reports what is wrong with it: first what is wrong with imported files, then
the messages of the program's own sources, one source after the other, and those of each source from top
to bottom: `Interpreter.reports_grouped`. All imported files have one rank, so the messages of several
of them are mixed, line by line.
-/

namespace LazySession

/-! ## Sorted messages -/

namespace Diagnostic

variable {sources : List String} {a b : Diagnostic} {ds : List Diagnostic}

/-- The first message stands above the second one, or they stand in one place. -/
def Above (a b : Diagnostic) : Prop :=
  a.pos.line < b.pos.line ∨ a.pos.line = b.pos.line ∧ a.pos.col ≤ b.pos.col

theorem before_iff : before sources a b = true ↔
    rank sources a.source < rank sources b.source ∨
      rank sources a.source = rank sources b.source ∧ a.Above b := by
  simp [before, Above]

theorem pairwise_sort (sources : List String) (ds : List Diagnostic) :
    (sort sources ds).Pairwise (before sources · · = true) := by
  refine List.pairwise_mergeSort (fun a b c hab hbc => ?_) (fun a b => ?_) ds
  · rw [before_iff, Above] at hab hbc ⊢
    omega
  · rw [Bool.or_eq_true, before_iff, before_iff, Above, Above]
    omega

theorem rank_eq_zero {source : String} : rank sources source = 0 ↔ source ∉ sources := by
  unfold rank
  split
  · rename_i h
    simpa using h
  · rename_i h
    simpa using h

theorem above_of_sorted (h : ds.Pairwise (before sources · · = true)) (source : String) :
    (ds.filter (·.source = source)).Pairwise Above := by
  refine (h.filter _).imp_of_mem fun {a b} ha hb hab => ?_
  have ha := of_decide_eq_true (List.mem_filter.mp ha).2
  have hb := of_decide_eq_true (List.mem_filter.mp hb).2
  rcases before_iff.mp hab with hlt | ⟨-, habove⟩
  · rw [ha, hb] at hlt
    exact absurd hlt (Nat.lt_irrefl _)
  · exact habove

theorem above_elsewhere (h : ds.Pairwise (before sources · · = true)) :
    (ds.filter (·.source ∉ sources)).Pairwise Above := by
  refine (h.filter _).imp_of_mem fun {a b} ha hb hab => ?_
  have ha := rank_eq_zero.mpr (of_decide_eq_true (List.mem_filter.mp ha).2)
  have hb := rank_eq_zero.mpr (of_decide_eq_true (List.mem_filter.mp hb).2)
  exact ((before_iff.mp hab).resolve_left (by omega)).2

end Diagnostic

theorem filter_append_of_pairwise {α : Type} {p : α → Bool} {l : List α}
    (h : l.Pairwise fun a b => p b = true → p a = true) :
    l = l.filter p ++ l.filter fun a => !p a := by
  induction l with
  | nil => rfl
  | cons a l ih =>
    rw [List.pairwise_cons] at h
    by_cases ha : p a = true
    · rw [List.filter_cons_of_pos ha, List.filter_cons_of_neg (by simp [ha]), List.cons_append,
        ← ih h.2]
    · have hnone : ∀ b ∈ l, p b ≠ true := fun b hb hp => ha (h.1 b hb hp)
      rw [List.filter_cons_of_neg ha, List.filter_eq_nil_iff.mpr hnone, List.nil_append,
        List.filter_eq_self.mpr]
      exact List.forall_mem_cons.mpr ⟨by simpa using ha, fun b hb => by simpa using hnone b hb⟩

namespace Diagnostic

variable {sources : List String} {ds : List Diagnostic}

theorem blocks_of_idxOf : ∀ {sources : List String} {ds : List Diagnostic}, sources.Nodup →
    (∀ d ∈ ds, d.source ∈ sources) →
    ds.Pairwise (fun a b => sources.idxOf a.source ≤ sources.idxOf b.source) →
    ds = sources.flatMap fun source => ds.filter (·.source = source) := by
  intro sources
  induction sources with
  | nil =>
    intro ds _ hmem _
    exact List.eq_nil_iff_forall_not_mem.mpr fun d hd => absurd (hmem d hd) List.not_mem_nil
  | cons source sources ih =>
    intro ds hn hmem hsorted
    rw [List.nodup_cons] at hn
    have hfront : ds.Pairwise fun a b => decide (b.source = source) = true →
        decide (a.source = source) = true := by
      refine hsorted.imp fun {a b} hab hb => ?_
      rw [of_decide_eq_true hb, List.idxOf_cons_self, Nat.le_zero] at hab
      by_contra ha
      rw [List.idxOf_cons_ne _ fun he => ha (by simp [he])] at hab
      cases hab
    have hsplit := filter_append_of_pairwise hfront
    have hne : ∀ d ∈ ds.filter (fun d => !decide (d.source = source)), source ≠ d.source :=
      fun d hd he => by simp [he] at hd
    have hrest := @ih (ds.filter fun d => !decide (d.source = source)) hn.2 ?_ ?_
    · rw [List.flatMap_cons]
      refine hsplit.trans (congrArg _ (hrest.trans ?_))
      refine List.flatMap_congr fun s hs => ?_
      rw [List.filter_filter]
      refine List.filter_congr fun d _ => ?_
      have : d.source = s → d.source ≠ source := by
        rintro rfl rfl
        exact hn.1 hs
      by_cases hd : d.source = s <;> simp [hd]
      exact hd ▸ this hd
    · intro d hd
      exact (List.mem_cons.mp (hmem d (List.mem_filter.mp hd).1)).resolve_left (hne d hd).symm
    · refine (hsorted.filter _).imp_of_mem fun {a b} ha hb hab => ?_
      rw [List.idxOf_cons_ne _ (hne a ha), List.idxOf_cons_ne _ (hne b hb)] at hab
      exact Nat.le_of_succ_le_succ hab

theorem blocks_of_sorted (hn : sources.Nodup) (h : ds.Pairwise (before sources · · = true)) :
    ds = ds.filter (·.source ∉ sources) ++
      sources.flatMap fun source => ds.filter (·.source = source) := by
  have hfront : ds.Pairwise fun a b => decide (b.source ∉ sources) = true →
      decide (a.source ∉ sources) = true := by
    refine h.imp fun {a b} hab hb => decide_eq_true ?_
    have hb := rank_eq_zero.mpr (of_decide_eq_true hb)
    have hab := before_iff.mp hab
    exact rank_eq_zero.mp (by omega)
  have hmem : ∀ d ∈ ds.filter (fun d => !decide (d.source ∉ sources)), d.source ∈ sources :=
    fun d hd => by simpa using (List.mem_filter.mp hd).2
  have hblocks := blocks_of_idxOf hn hmem ((h.filter _).imp_of_mem fun {a b} ha hb hab => ?_)
  · refine (filter_append_of_pairwise hfront).trans (congrArg _ (hblocks.trans ?_))
    refine List.flatMap_congr fun s hs => ?_
    rw [List.filter_filter]
    refine List.filter_congr fun d _ => ?_
    by_cases hd : d.source = s <;> simp [hd, hs]
  · have hab := before_iff.mp hab
    unfold rank at hab
    rw [if_pos (by simpa using hmem a ha), if_pos (by simpa using hmem b hb)] at hab
    omega

end Diagnostic

/-! ## Programs -/

namespace Piece

variable {S : Set Pos} {p : Piece}

theorem remark_within {d : Decl} (hd : d.Within S) (sigs bound : List String) :
    ∀ r ∈ remark sigs bound d, r.1 ∈ S := by
  have duplicates : ∀ {pos : Pos}, pos ∈ S → ∀ (ns sigs : List String),
      ∀ r ∈ remark.duplicates pos sigs ns, r.1 ∈ S := by
    intro pos hpos ns
    induction ns with
    | nil => exact fun _ _ hr => absurd hr List.not_mem_nil
    | cons n ns ih =>
      intro sigs
      unfold remark.duplicates
      split
      · exact List.forall_mem_cons.mpr ⟨hpos, ih _⟩
      · exact ih _
  cases d with
  | importing pos mod => exact fun _ hr => absurd hr List.not_mem_nil
  | signature pos names type =>
    exact List.forall_mem_append.mpr ⟨TypeExpr.check_within hd.2, duplicates hd.1 names sigs⟩
  | binding b =>
    simp only [remark]
    split
    · exact List.forall_mem_singleton.mpr hd.1
    · exact fun _ hr => absurd hr List.not_mem_nil

theorem remarksFrom_within {ds : List Decl} (hds : ∀ d ∈ ds, d.Within S) :
    ∀ (sigs bound : List String), ∀ r ∈ remarksFrom sigs bound ds, r.1 ∈ S := by
  induction ds with
  | nil => exact fun _ _ _ hr => absurd hr List.not_mem_nil
  | cons d ds ih =>
    intro sigs bound
    rw [List.forall_mem_cons] at hds
    unfold remarksFrom
    refine List.forall_mem_append.mpr ⟨remark_within hds.1 sigs bound, ?_⟩
    cases d <;> exact ih hds.2 _ _

theorem diagnostics_within : ∀ d ∈ p.diagnostics, d.source = p.source ∧
    ((∀ decl ∈ p.decls, decl.Within S) → d.pos ∈ S) := by
  intro d hd
  obtain ⟨r, hr, rfl⟩ := List.mem_map.mp hd
  refine ⟨rfl, fun hp => ?_⟩
  rcases List.mem_append.mp hr with hr | hr
  · exact remarksFrom_within hp _ _ r hr
  · obtain ⟨⟨n, pos, type⟩, hsig, he⟩ := List.mem_filterMap.mp hr
    obtain ⟨names, -, hdecl⟩ := mem_signatures hsig
    simp only at he
    split at he
    · cases he
    · cases he
      exact (hp _ hdecl).1

end Piece

namespace Program

variable {S : Set Pos} {ps : List Piece} {imported : Table Import}

/-- What is said about a program is said of a place in one of its pieces, or was said about an
import. -/
def Told (ps : List Piece) (imported : Table Import) (d : Diagnostic) : Prop :=
  (∃ p ∈ ps, d.source = p.source ∧ ∀ S : Set Pos, (∀ decl ∈ p.decls, decl.Within S) → d.pos ∈ S) ∨
    ∃ mod es, imported.get? mod = some (.failed es) ∧ d ∈ es

theorem told_of_import {i : String × Pos × String} (h : i ∈ imports ps) :
    ∀ d ∈ importDiagnostics i.1 i.2.1 i.2.2 ((imported.get? i.2.2).getD .unknown),
      Told ps imported d := by
  obtain ⟨p, hp, hi⟩ := exists_of_mem_imports h
  obtain ⟨decl, hdecl, he⟩ := List.mem_filterMap.mp hi
  have hunknown : Told ps imported ⟨i.1, i.2.1, .unknownModule i.2.2⟩ := by
    refine .inl ⟨p, hp, ?_, fun S hS => ?_⟩
    all_goals
      cases decl with
      | importing pos mod => first | (cases he; rfl) | (cases he; exact hS _ hdecl)
      | _ => cases he
  cases hget : imported.get? i.2.2 with
  | none => exact List.forall_mem_singleton.mpr hunknown
  | some import' =>
    cases import' with
    | «exports» names => exact fun _ hd => absurd hd List.not_mem_nil
    | unknown => exact List.forall_mem_singleton.mpr hunknown
    | failed es =>
      cases es with
      | nil => exact List.forall_mem_singleton.mpr hunknown
      | cons e es => exact fun d hd => .inr ⟨_, _, hget, hd⟩

theorem told_of_scope (vis : Visible) : ∀ d ∈ scopeDiagnostics ps vis, Told ps imported d := by
  intro d hd
  obtain ⟨definition, hdef, hd⟩ := List.mem_flatMap.mp hd
  obtain ⟨r, hr, rfl⟩ := List.mem_map.mp hd
  obtain ⟨p, hp, hdef⟩ := mem_definitions hdef
  obtain ⟨b, hb, rfl⟩ := List.mem_map.mp hdef
  obtain ⟨decl, hdecl, he⟩ := List.mem_filterMap.mp hb
  refine .inl ⟨p, hp, rfl, fun S hS => ?_⟩
  cases decl with
  | binding b' =>
    cases he
    exact (hS _ hdecl).2 (Expr.check_places vis _ _ r hr)
  | _ => cases he

theorem check_error_sorted {name : String} {ds : List Diagnostic}
    (h : check name ps imported = .error ds) :
    ds.Pairwise (Diagnostic.before (ps.map (·.source)) · · = true) ∧ ∀ d ∈ ds, Told ps imported d := by
  unfold check at h
  simp only at h
  split at h
  · cases h
  · cases h
    refine ⟨Diagnostic.pairwise_sort _ _, fun d hd => ?_⟩
    rw [Diagnostic.sort, List.mem_mergeSort, List.mem_append, List.mem_append] at hd
    rcases hd with (hd | hd) | hd
    · obtain ⟨p, hp, hd⟩ := List.mem_flatMap.mp hd
      refine .inl ⟨p, hp, (Piece.diagnostics_within (S := ∅) d hd).1, fun S hS => ?_⟩
      exact (Piece.diagnostics_within d hd).2 hS
    · obtain ⟨i, hi, hd⟩ := List.mem_flatMap.mp hd
      exact told_of_import hi d hd
    · exact told_of_scope _ d hd

end Program

namespace Interpreter

/-! ## Imported files -/

/-- The message is about an imported file, or it has no place at all. -/
def Foreign (locator : Locator) (d : Diagnostic) : Prop :=
  (d.source = "" ∧ d.pos = ⟨0, 0⟩) ∨
    ∃ name file, locator.find name = .ok file ∧ d.source = file.path ∧ d.pos ∈ Pos.placed

theorem foreign_unplaced (locator : Locator) (c : Complaint) : Foreign locator (.unplaced c) :=
  .inl ⟨rfl, rfl⟩

/-- What is wrong with an import is wrong with files. -/
def Blames (locator : Locator) (resolve : String → StateM Search Program.Import) : Prop :=
  ∀ mod, Plain mod → ∀ s : Search, Truthful s.cache →
    (∀ ds, ((resolve mod).run s).1 = .failed ds → ∀ d ∈ ds, Foreign locator d) ∧
      Truthful ((resolve mod).run s).2.cache

section
variable {locator : Locator} {resolve : String → StateM Search Program.Import}

theorem Blames.importAll (hr : Blames locator resolve) (is : List (String × Pos × String)) :
    (∀ i ∈ is, Plain i.2.2) → ∀ s : Search, Truthful s.cache →
      ∀ p ∈ ((importAll resolve is).run s).1, ∀ ds, p.2 = .failed ds → ∀ d ∈ ds, Foreign locator d := by
  induction is with
  | nil => exact fun _ s _ _ hp => absurd hp List.not_mem_nil
  | cons i is ih =>
    intro his s hs
    rw [List.forall_mem_cons] at his
    obtain ⟨hone, hs₁⟩ := hr i.2.2 his.1 s hs
    rw [run_importAll]
    exact List.forall_mem_cons.mpr ⟨hone, ih his.2 _ hs₁⟩

theorem Blames.compile (hr : Blames locator resolve) (name : String) {ps : List Piece}
    (hps : PlainPieces ps) {s : Search} (hs : Truthful s.cache) {ds : List Diagnostic}
    (h : ((Interpreter.compile resolve name ps).run s).1 = .error ds) :
    ds.Pairwise (Diagnostic.before (ps.map (·.source)) · · = true) ∧
      ∀ d ∈ ds, Foreign locator d ∨ ∃ p ∈ ps, d.source = p.source ∧
        ∀ S : Set Pos, (∀ decl ∈ p.decls, decl.Within S) → d.pos ∈ S := by
  obtain ⟨hsorted, htold⟩ := Program.check_error_sorted h
  refine ⟨hsorted, fun d hd => ?_⟩
  rcases htold d hd with hown | ⟨mod, es, hget, hd⟩
  · exact .inr hown
  · have hall := hr.importAll (Program.imports ps) (plain_imports hps) s hs
    exact .inl (hall _ (Table.mem_of_get? hget) es rfl d hd)

theorem Blames.finishFile (hr : Blames locator resolve) {file : SourceFile}
    (hfile : locator.find file.name = .ok file) {s : Search} (hs : Truthful s.cache)
    {ds : List Diagnostic} (h : ((finishFile resolve file (Module.ofText file.path file.text)).run
      s).1 = .failed ds) : ∀ d ∈ ds, Foreign locator d := by
  cases hread : Module.ofText file.path file.text with
  | error es =>
    rw [hread] at h
    cases h
    intro d hd
    obtain ⟨e, he, rfl⟩ := List.mem_map.mp hd
    obtain ⟨hsource, hpos⟩ := (Module.listed_ofText hread).placed e he
    exact .inr ⟨_, file, hfile, hsource, hpos⟩
  | ok m =>
    obtain ⟨hpos, hdecls⟩ := Module.within_ofText hread
    have hplain : PlainPieces [⟨file.path, m.decls⟩] := List.forall_mem_singleton.mpr
      (Module.each_ofText reads_plainImport (fun _ => plain_tokens) hread)
    rw [hread] at h
    unfold Interpreter.finishFile at h
    simp only at h
    split at h
    · cases h
      exact List.forall_mem_singleton.mpr (.inr ⟨_, file, hfile, rfl, hpos⟩)
    · have hc := fun es (he : ((Interpreter.compile resolve file.name [⟨file.path, m.decls⟩]).run s).1 =
        .error es) => hr.compile file.name hplain hs he
      simp only [StateT.run_bind] at h
      generalize (Interpreter.compile resolve file.name [⟨file.path, m.decls⟩]).run s = q at hc h
      obtain ⟨r, s₁⟩ := q
      cases r with
      | ok code => cases h
      | error es =>
        cases h
        intro d hd
        rcases (hc _ rfl).2 d hd with hforeign | ⟨p, hp, hsource, hwithin⟩
        · exact hforeign
        · obtain rfl := List.mem_singleton.mp hp
          exact .inr ⟨_, file, hfile, hsource, hwithin _ hdecls⟩

theorem blames_resolve (locator : Locator) (known : String → Option ModuleCode) (fuel : Nat) :
    ∀ resolving, Blames locator (Interpreter.resolve locator known fuel resolving) := by
  have htruthful : ∀ fuel resolving mod (s : Search), Plain mod → Truthful s.cache →
      Truthful ((Interpreter.resolve locator known fuel resolving mod).run s).2.cache :=
    fun fuel resolving mod s hmod hs =>
      (blind_resolve locator known fuel resolving mod hmod s s ⟨rfl, hs, hs⟩).2.left
  induction fuel with
  | zero =>
    refine fun resolving mod hmod s hs => ⟨fun ds h => ?_, htruthful _ _ _ _ hmod hs⟩
    cases h
    exact List.forall_mem_singleton.mpr (foreign_unplaced _ _)
  | succ fuel ih =>
    refine fun resolving mod hmod s hs => ⟨fun ds h => ?_, htruthful _ _ _ _ hmod hs⟩
    unfold Interpreter.resolve at h
    simp only [StateT.run_bind, StateT.run_get, pure_bind] at h
    split at h
    · cases h
    · split at h
      · cases h
      · split at h
        · cases h
          exact List.forall_mem_singleton.mpr (foreign_unplaced _ _)
        · split at h
          · rename_i file hfile
            obtain rfl := find_name hfile
            have hpath := plain_find hmod hfile
            rw [run_compileFile _ hs hpath] at h
            exact (ih _).finishFile hfile (truthful_readModule hs hpath file.text).2 h
          · split at h
            · cases h
            · cases h
              exact List.forall_mem_singleton.mpr (foreign_unplaced _ _)

end

theorem path_of_find {locator : Locator} {name : String} {file : SourceFile}
    (h : locator.find name = .ok file) : file.path ≠ "" ∧ file.path.toList.head? ≠ some '<' := by
  rcases Locator.find_ok h with ⟨_, -, rfl⟩ | ⟨-, path, _, hpath, -, rfl⟩
  · refine ⟨fun hempty => ?_, by simp⟩
    have := congrArg String.toList hempty
    simp at this
  · have hcheck := (Locator.filePath_ok hpath).2
    refine ⟨fun hempty => ?_, fun hhead => ?_⟩
    · simp only at hempty
      rw [hempty] at hcheck
      cases hcheck
    · exact not_mem_of_check (by decide) (by decide) hcheck (List.mem_of_head? hhead)

theorem Foreign.not_angle {locator : Locator} {d : Diagnostic} (h : Foreign locator d) :
    d.source.toList.head? ≠ some '<' := by
  rcases h with ⟨hd, -⟩ | ⟨name, file, hfile, hd, -⟩
  · rw [hd]
    nofun
  · rw [hd]
    exact (path_of_find hfile).2

/-! ## The program's own sources -/

/-- The sources of a program in the order in which they are compiled: the definitions of the session,
oldest first, and the text that is run. -/
def sources (history : History) : List String :=
  (List.range history.program.length).map definitionSource ++ [fragmentSource]

section
variable {history : History}

theorem angle_of_mem_sources {source : String} (h : source ∈ sources history) :
    source.toList.head? = some '<' := by
  rcases List.mem_append.mp h with h | h
  · obtain ⟨n, -, rfl⟩ := List.mem_map.mp h
    simp [definitionSource]
  · rw [List.mem_singleton.mp h]
    rfl

theorem Foreign.not_mem_sources {locator : Locator} {d : Diagnostic} (h : Foreign locator d) :
    d.source ∉ sources history := fun hmem => h.not_angle (angle_of_mem_sources hmem)

theorem nodup_sources (history : History) : (sources history).Nodup := by
  refine List.Nodup.append ?_ (List.nodup_singleton _) ?_
  · exact List.nodup_range.map fun _ _ => definitionSource_inj
  · intro s hs hs'
    obtain ⟨n, -, rfl⟩ := List.mem_map.mp hs
    exact definitionSource_ne (.inr rfl) n (List.mem_singleton.mp hs').symm

theorem rank_definitionSource {n : Nat} (h : n < history.program.length) :
    Diagnostic.rank (sources history) (definitionSource n) = n + 1 := by
  have hlen : n < (sources history).length := by simp [sources]; omega
  have hget : (sources history)[n] = definitionSource n := by
    simp [sources, List.getElem_append_left, h]
  rw [← hget, Diagnostic.rank, if_pos (by simp), (nodup_sources history).idxOf_getElem]

theorem sorted_listed {source : String} {es : List SyntaxError} (h : SyntaxError.Listed source es)
    (sources : List String) :
    (es.map Diagnostic.ofSyntaxError).Pairwise (Diagnostic.before sources · · = true) := by
  rw [List.pairwise_map]
  refine h.below.imp_of_mem fun {e f} he hf hlt => Diagnostic.before_iff.mpr (.inr ⟨?_, .inl hlt⟩)
  simp only [Diagnostic.ofSyntaxError, (h.placed e he).1, (h.placed f hf).1]

/-- What is wrong with the definitions is told from the oldest to the newest. -/
theorem sorted_pieces (history : History) (texts : List String) : ∀ {n : Nat},
    n + texts.length ≤ history.program.length →
    (pieces n texts).2.Pairwise (Diagnostic.before (sources history) · · = true) ∧
      ∀ d ∈ (pieces n texts).2, ∃ k, n ≤ k ∧ k < history.program.length ∧
        d.source = definitionSource k := by
  induction texts with
  | nil => exact fun _ => ⟨.nil, fun _ hd => absurd hd List.not_mem_nil⟩
  | cons text texts ih =>
    intro n hn
    rw [List.length_cons] at hn
    obtain ⟨hsorted, hmem⟩ := @ih (n + 1) (by omega)
    have hlater : ∀ d ∈ (pieces (n + 1) texts).2, ∃ k, n ≤ k ∧ k < history.program.length ∧
        d.source = definitionSource k := by
      intro d hd
      obtain ⟨k, hk, hrest⟩ := hmem d hd
      exact ⟨k, by omega, hrest⟩
    have hfront : ∀ ds : List Diagnostic, (∀ d ∈ ds, d.source = definitionSource n) →
        ds.Pairwise (Diagnostic.before (sources history) · · = true) →
        (ds ++ (pieces (n + 1) texts).2).Pairwise (Diagnostic.before (sources history) · · = true) ∧
          ∀ d ∈ ds ++ (pieces (n + 1) texts).2, ∃ k, n ≤ k ∧ k < history.program.length ∧
            d.source = definitionSource k := by
      intro ds hds hpair
      refine ⟨List.pairwise_append.mpr ⟨hpair, hsorted, fun a ha b hb => ?_⟩,
        List.forall_mem_append.mpr ⟨fun d hd => ⟨n, Nat.le_refl n, by omega, hds d hd⟩, hlater⟩⟩
      obtain ⟨k, hk, hlt, hsource⟩ := hmem b hb
      refine Diagnostic.before_iff.mpr (.inl ?_)
      rw [hds a ha, hsource, rank_definitionSource (by omega), rank_definitionSource hlt]
      omega
    unfold pieces
    split
    · rename_i es hes
      have hlisted := Fragment.listed_ofText hes
      refine hfront _ (fun d hd => ?_) (sorted_listed hlisted _)
      obtain ⟨e, he, rfl⟩ := List.mem_map.mp hd
      exact (hlisted.placed e he).1
    · exact ⟨hsorted, hlater⟩
    · exact hfront [_] (List.forall_mem_singleton.mpr rfl) (List.pairwise_singleton ..)

theorem sources_pieces (texts : List String) : ∀ {n : Nat}, (pieces n texts).2 = [] →
    (pieces n texts).1.map (·.source) = (List.range' n texts.length).map definitionSource := by
  induction texts with
  | nil => exact fun _ => rfl
  | cons text texts ih =>
    intro n h
    unfold pieces at h ⊢
    split at h
    · rename_i es hes
      have hnil := List.map_eq_nil_iff.mp (List.append_eq_nil_iff.mp h).1
      exact absurd hnil (Fragment.ofText_error hes)
    · rw [List.map_cons, ih h, List.length_cons, List.range'_succ, List.map_cons]
    · cases h

/-! ## Rejected runs -/

variable {ip : Interpreter} {known : String → Option ModuleCode} {ds : List Diagnostic}

/-- What is wrong with pieces is sorted, and said of them or of imported files. -/
theorem sorted_compiled {name : String} {ps : List Piece} (hps : PlainPieces ps)
    (h : ip.compiled known name ps = .error ds) :
    ds.Pairwise (Diagnostic.before (ps.map (·.source)) · · = true) ∧
      ∀ d ∈ ds, Foreign ip.locator d ∨ d.source ∈ ps.map (·.source) := by
  unfold compiled at h
  have hblames := blames_resolve ip.locator known (ip.locator.size + 2) []
  have hc := fun es (he : ((compile (resolve ip.locator known (ip.locator.size + 2) []) name ps).run
    ⟨.disabled, []⟩).1 = .error es) => hblames.compile name hps (truthful_empty rfl) he
  generalize (compile (resolve ip.locator known (ip.locator.size + 2) []) name ps).run
    ⟨.disabled, []⟩ = q at hc h
  obtain ⟨r, s⟩ := q
  cases r with
  | ok c => cases h
  | error es =>
    cases h
    obtain ⟨hsorted, hmem⟩ := hc _ rfl
    refine ⟨hsorted, fun d hd => (hmem d hd).imp_right ?_⟩
    rintro ⟨p, hp, hsource, -⟩
    exact hsource ▸ List.mem_map_of_mem hp

theorem sorted_compiledBehind {name : String} {decls : List Decl}
    (hd : ∀ d ∈ decls, PlainImport d)
    (h : ip.compiledBehind known history name decls = .error ds) :
    ds.Pairwise (Diagnostic.before (sources history) · · = true) ∧
      ∀ d ∈ ds, Foreign ip.locator d ∨ d.source ∈ sources history := by
  obtain ⟨hsorted, hmem⟩ := sorted_pieces history history.program (n := 0) (by omega)
  have hps := plain_pieces history.program 0
  have hsources := sources_pieces history.program (n := 0)
  unfold compiledBehind at h
  generalize pieces 0 history.program = q at h hsorted hmem hps hsources
  obtain ⟨ps, es⟩ := q
  simp only at h hsorted hmem hps hsources
  split at h
  · rename_i hes
    have he : (ps ++ [(⟨fragmentSource, decls⟩ : Piece)]).map (·.source) = sources history := by
      rw [List.map_append, hsources (List.isEmpty_iff.mp hes), ← List.range_eq_range', sources]
      rfl
    rw [← he]
    exact sorted_compiled (List.forall_mem_append.mpr ⟨hps, List.forall_mem_singleton.mpr hd⟩) h
  · cases h
    refine ⟨hsorted, fun d hd => .inr ?_⟩
    obtain ⟨k, -, hk, hsource⟩ := hmem d hd
    rw [hsource]
    exact List.mem_append_left _ (List.mem_map_of_mem (List.mem_range.mpr hk))

theorem fragmentSource_mem (history : History) : fragmentSource ∈ sources history := by
  simp [sources]

/-- The definitions do not change the order of messages that are about none of them. -/
theorem before_sources {locator : Locator} {a b : Diagnostic}
    (ha : Foreign locator a ∨ a.source = fragmentSource)
    (hb : Foreign locator b ∨ b.source = fragmentSource)
    (h : Diagnostic.before [fragmentSource] a b = true) :
    Diagnostic.before (sources history) a b = true := by
  have hrank : ∀ d : Diagnostic, Foreign locator d ∨ d.source = fragmentSource →
      Diagnostic.rank [fragmentSource] d.source = 0 ∧ Diagnostic.rank (sources history) d.source = 0 ∨
      Diagnostic.rank [fragmentSource] d.source = 1 ∧ d.source = fragmentSource := by
    rintro d (hd | hd)
    · refine .inl ⟨Diagnostic.rank_eq_zero.mpr fun hmem => ?_,
        Diagnostic.rank_eq_zero.mpr hd.not_mem_sources⟩
      rw [List.mem_singleton] at hmem
      have hnot : d.source ∉ sources history := hd.not_mem_sources
      exact hnot (hmem ▸ fragmentSource_mem history)
    · rw [hd]
      exact .inr ⟨rfl, rfl⟩
  have hpos : Diagnostic.rank (sources history) fragmentSource ≠ 0 :=
    fun h => Diagnostic.rank_eq_zero.mp h (fragmentSource_mem history)
  rw [Diagnostic.before_iff] at h ⊢
  rcases hrank a ha with ⟨ha, ha'⟩ | ⟨ha, ha'⟩ <;> rcases hrank b hb with ⟨hb, hb'⟩ | ⟨hb, hb'⟩
  · exact .inr ⟨by rw [ha', hb'], (h.resolve_left (by omega)).2⟩
  · rw [ha', hb']
    exact .inl (Nat.pos_of_ne_zero hpos)
  · omega
  · exact .inr ⟨by rw [ha', hb'], (h.resolve_left (by omega)).2⟩

theorem sorted_verdict {text : String} (h : ip.verdict known history text = .error ds) :
    ds.Pairwise (Diagnostic.before (sources history) · · = true) ∧
      ∀ d ∈ ds, Foreign ip.locator d ∨ d.source ∈ sources history := by
  have hfragment := fragmentSource_mem history
  unfold verdict at h
  cases hread : Fragment.ofText fragmentSource text with
  | error es =>
    rw [hread] at h
    cases h
    have hlisted := Fragment.listed_ofText hread
    refine ⟨sorted_listed hlisted _, fun d hd => .inr ?_⟩
    obtain ⟨e, he, rfl⟩ := List.mem_map.mp hd
    rw [Diagnostic.ofSyntaxError, (hlisted.placed e he).1]
    exact hfragment
  | ok f =>
    have hplain := Fragment.each_ofText reads_plainImport (fun _ => plain_tokens) hread
    rw [hread] at h
    cases f with
    | module m =>
      cases hc : ip.compiled known m.name [⟨fragmentSource, m.decls⟩] with
      | ok c =>
        simp only [hc] at h
        cases h
      | error es =>
        simp only [hc] at h
        cases h
        obtain ⟨hsorted, hmem⟩ := sorted_compiled (List.forall_mem_singleton.mpr hplain) hc
        -- a module stands alone, so its messages come from its own text or from imported files
        have hown : ∀ d ∈ ds, Foreign ip.locator d ∨ d.source = fragmentSource :=
          fun d hd => (hmem d hd).imp_right List.mem_singleton.mp
        refine ⟨hsorted.imp_of_mem fun {a b} ha hb hab => ?_,
          fun d hd => (hown d hd).imp_right fun hsource => by rw [hsource]; exact hfragment⟩
        exact before_sources (hown a ha) (hown b hb) hab
    | definitions decls =>
      cases hc : ip.compiledBehind known history definitionsModule decls with
      | ok c =>
        simp only [hc] at h
        cases h
      | error es =>
        simp only [hc] at h
        cases h
        exact sorted_compiledBehind hplain hc
    | expression e =>
      cases hc : ip.compiledBehind known history (scriptName history text)
          [.binding (resultBinding e)] with
      | ok c =>
        simp only [hc] at h
        cases h
      | error es =>
        simp only [hc] at h
        cases h
        have hplain : ∀ d ∈ [Decl.binding (resultBinding e)], PlainImport d :=
          List.forall_mem_singleton.mpr trivial
        exact sorted_compiledBehind hplain hc

/-- A run that rejects has a verdict that does. -/
theorem verdict_of_rejected {w w' : World} {loader : Option (Supplied Loader)} {text : String}
    (hw : Truthful w.cache)
    (h : (ip.run (.ours (programOf text)) history loader).run w = (.ok (.rejected ds), w')) :
    ip.verdict ((suppliedLoader loader).code? w) history text = .error ds := by
  have hours : ∀ l : Loader, (ip.run (.ours (programOf text)) history (some (.ours l))).run w =
      (.ok (.rejected ds), w') → ip.verdict (l.code? w) history text = .error ds := by
    intro l h
    obtain ⟨cache, -, heq⟩ := run_eq ip text history l hw
    rw [h] at heq
    split at heq
    · cases heq
    · split at heq
      · rename_i hv
        cases heq
        exact hv
      · cases heq
  rcases loader with _ | l | type
  · exact hours .empty h
  · exact hours l h
  · unfold run at h
    rw [Act.run_bind, Act.run_inquire] at h
    cases hstop : w.context.patience.inquire.1 <;> rw [hstop] at h <;> cases h

/-- The messages of a source stand side by side. -/
def SideBySide (ds : List Diagnostic) (source : String) : Prop :=
  ∃ before after, ds = before ++ ds.filter (·.source = source) ++ after

theorem sideBySide_of_blocks {front : List Diagnostic} {sources : List String} {source : String}
    (h : ds = front ++ sources.flatMap fun source => ds.filter (·.source = source))
    (hs : source ∈ sources) : SideBySide ds source := by
  obtain ⟨earlier, later, rfl⟩ := List.append_of_mem hs
  rw [List.flatMap_append, List.flatMap_cons] at h
  exact ⟨front ++ earlier.flatMap fun source => ds.filter (·.source = source),
    later.flatMap fun source => ds.filter (·.source = source), by simpa using h⟩

theorem sideBySide_of_front {front back : List Diagnostic} {source : String} (hds : ds = front ++ back)
    (hback : ∀ d ∈ back, d.source ≠ source) (h : SideBySide front source) : SideBySide ds source := by
  obtain ⟨before, after, he⟩ := h
  refine ⟨before, after ++ back, ?_⟩
  have hnone : back.filter (·.source = source) = [] :=
    List.filter_eq_nil_iff.mpr fun d hd => by simpa using hback d hd
  rw [hds, List.filter_append, hnone, List.append_nil, ← List.append_assoc, ← he]

/-- Messages about one file stand side by side, behind those without a place. -/
theorem sideBySide_of_file {locator : Locator} {front : List Diagnostic} {path : String}
    (habove : front.Pairwise Diagnostic.Above) (hforeign : ∀ d ∈ front, Foreign locator d)
    (hone : ∀ d ∈ front, d.source ≠ "" → d.source = path) (source : String) :
    SideBySide front source := by
  have hcases : ∀ d ∈ front, (d.pos.line < 1 ∧ d.source = "") ∨
      (¬ d.pos.line < 1 ∧ d.source = path ∧ path ≠ "") := by
    intro d hd
    rcases hforeign d hd with ⟨hsource, hpos⟩ | ⟨name, file, hfile, hsource, hpos⟩
    · exact .inl ⟨by simp [hpos], hsource⟩
    · have hne : d.source ≠ "" := hsource ▸ (path_of_find hfile).1
      have hpath := hone d hd hne
      exact .inr ⟨Int.not_lt.mpr hpos, hpath, hpath ▸ hne⟩
  have hsplit := filter_append_of_pairwise (p := fun d : Diagnostic => decide (d.pos.line < 1))
    (habove.imp fun {a b} hab hb => by
      have hb := of_decide_eq_true hb
      rw [Diagnostic.Above] at hab
      exact decide_eq_true (by omega))
  by_cases hempty : source = ""
  · refine ⟨[], front.filter fun d => !decide (d.pos.line < 1), ?_⟩
    rw [List.nil_append]
    refine hsplit.trans (congrArg (· ++ _) (List.filter_congr fun d hd => ?_))
    rcases hcases d hd with ⟨hlow, hsource⟩ | ⟨hhigh, hsource, hne⟩
    · simp [hlow, hsource, hempty]
    · simp [hhigh, hsource, hne, hempty]
  · by_cases hpath : source = path
    · refine ⟨front.filter fun d => decide (d.pos.line < 1), [], ?_⟩
      rw [List.append_nil]
      refine hsplit.trans (congrArg _ (List.filter_congr fun d hd => ?_))
      rcases hcases d hd with ⟨hlow, hsource⟩ | ⟨hhigh, hsource, hne⟩
      · simp [hlow, hsource, Ne.symm hempty]
      · simp [hhigh, hsource, hpath]
    · refine ⟨front, [], ?_⟩
      have hnone : front.filter (·.source = source) = [] := by
        refine List.filter_eq_nil_iff.mpr fun d hd => ?_
        rcases hcases d hd with ⟨-, hsource⟩ | ⟨-, hsource, -⟩
        · simpa [hsource] using Ne.symm hempty
        · simpa [hsource] using Ne.symm hpath
      rw [hnone, List.append_nil, List.append_nil]

/-- **Reports are grouped by source.** Whatever is wrong with a text that a run rejects, what is said of
imported files comes first, then what is said of the program's own sources, one after the other in the
order in which they are compiled, and the messages of each source come from top to bottom. So those of a
source of the program stand side by side, and if no more than one imported file has something wrong, those
of every source do. -/
theorem reports_grouped {w w' : World} {loader : Option (Supplied Loader)} {text : String}
    (hw : Truthful w.cache)
    (h : (ip.run (.ours (programOf text)) history loader).run w = (.ok (.rejected ds), w')) :
    (ds = ds.filter (·.source ∉ sources history) ++
      (sources history).flatMap fun source => ds.filter (·.source = source)) ∧
    (∀ d ∈ ds, d.source ∈ sources history ∨ Foreign ip.locator d ∧ d.source ∉ sources history) ∧
    (∀ source, (ds.filter (·.source = source)).Pairwise Diagnostic.Above) ∧
    (∀ source ∈ sources history, SideBySide ds source) ∧
    ((∀ d ∈ ds, ∀ e ∈ ds, d.source ∉ sources history → e.source ∉ sources history →
        d.source ≠ "" → e.source ≠ "" → d.source = e.source) →
      ∀ source, SideBySide ds source) := by
  obtain ⟨hsorted, hmem⟩ := sorted_verdict (verdict_of_rejected hw h)
  have hblocks := Diagnostic.blocks_of_sorted (nodup_sources history) hsorted
  have hown := fun source (hs : source ∈ sources history) => sideBySide_of_blocks hblocks hs
  refine ⟨hblocks, fun d hd => ?_, Diagnostic.above_of_sorted hsorted, hown, fun hone source => ?_⟩
  · rcases hmem d hd with hforeign | hs
    · exact .inr ⟨hforeign, hforeign.not_mem_sources⟩
    · exact .inl hs
  · by_cases hs : source ∈ sources history
    · exact hown source hs
    · have hfront : ∀ d ∈ ds.filter (·.source ∉ sources history),
          d ∈ ds ∧ d.source ∉ sources history := fun d hd =>
        ⟨(List.mem_filter.mp hd).1, of_decide_eq_true (List.mem_filter.mp hd).2⟩
      refine sideBySide_of_front hblocks (fun d hd he => ?_) ?_
      · obtain ⟨source', hs', hd⟩ := List.mem_flatMap.mp hd
        have hsource := of_decide_eq_true (List.mem_filter.mp hd).2
        exact hs (he ▸ hsource ▸ hs')
      · have hforeign : ∀ d ∈ ds.filter (·.source ∉ sources history), Foreign ip.locator d :=
          fun d hd => (hmem d (hfront d hd).1).resolve_right (hfront d hd).2
        have hpath : ∃ path, ∀ d ∈ ds.filter (·.source ∉ sources history), d.source ≠ "" →
            d.source = path := by
          by_cases hex : ∃ d ∈ ds.filter (·.source ∉ sources history), d.source ≠ ""
          · obtain ⟨d, hd, hne⟩ := hex
            exact ⟨d.source, fun e he hne' => hone e (hfront e he).1 d (hfront d hd).1
              (hfront e he).2 (hfront d hd).2 hne' hne⟩
          · exact ⟨"", fun d hd hne => absurd ⟨d, hd, hne⟩ hex⟩
        obtain ⟨path, hpath⟩ := hpath
        exact sideBySide_of_file (Diagnostic.above_elsewhere hsorted) hforeign hpath source

end

/-- A run that has found something wrong. -/
def rejects : RunResult → Bool
  | .rejected _ => true
  | .accepted _ _ => false

/-- An interpreter that finds one file, in which two definitions cannot be read. -/
def lone : Interpreter :=
  ⟨{ roots := [], overlay := [("A", "module A where\nx = )\n\ny = )")] }, ⟨.empty, 100⟩⟩

theorem path_lone {name : String} {file : SourceFile} (h : lone.locator.find name = .ok file) :
    file.path = "overlay:A" := by
  unfold Locator.find at h
  split at h
  · rename_i text htext
    cases h
    obtain ⟨rfl, -⟩ := Prod.mk.inj (List.mem_singleton.mp (Table.mem_of_get? htext))
    rfl
  · cases hpath : lone.locator.filePath name <;> rw [hpath] at h <;> cases h

theorem reports_grouped_file : ∃ ds w',
    (lone.run (.ours (programOf "import A\nz = c")) {} none).run { cache := .disabled } =
      (.ok (.rejected ds), w') ∧ ∀ source, SideBySide ds source := by
  have hrejected : ((lone.run (.ours (programOf "import A\nz = c")) {} none).run
      { cache := .disabled }).1.toOption.map rejects = some true := by decide +kernel
  generalize hrun : (lone.run (.ours (programOf "import A\nz = c")) {} none).run
    { cache := .disabled } = q at hrejected
  obtain ⟨r, w'⟩ := q
  rcases r with e | ⟨kind, l⟩ | ds
  · cases hrejected
  · cases hrejected
  · obtain ⟨-, hmem, -, -, hside⟩ := reports_grouped (truthful_empty rfl) hrun
    refine ⟨ds, w', rfl, hside ?_⟩
    have hfile : ∀ d ∈ ds, d.source ∉ sources {} → d.source ≠ "" → d.source = "overlay:A" := by
      intro d hd hs hne
      rcases ((hmem d hd).resolve_left hs).1 with ⟨hempty, -⟩ | ⟨name, file, hfile, hsource, -⟩
      · exact absurd hempty hne
      · exact hsource.trans (path_lone hfile)
    intro d hd e he hds hes hd' he'
    rw [hfile d hd hds hd', hfile e he hes he']

end Interpreter

end LazySession

import LazySession.Proofs.Scope.Loadable

/-!
# What is accepted

`Interpreter.compiled_isOk`: a program is accepted if all that it imports is loadable and it is
well-formed. So accepting a program that ends in some declarations does not put an end to accepting
another one in front of which they come: `Interpreter.compiled_between`.
-/

namespace LazySession

/-! ## Sources of texts -/

theorem Lexed.ofText_source {source text : String} {lexed : Lexed}
    (h : ofText source text = .ok lexed) (source' : String) : ofText source' text = .ok lexed := by
  unfold ofText at h ⊢
  split at h
  · cases h
  · exact h

theorem Decl.ofItems_source {source : String} {items : List Item} {ds : List Decl}
    (h : ofItems source items = .ok ds) (source' : String) : ofItems source' items = .ok ds := by
  unfold ofItems at h ⊢
  simp only at h ⊢
  split at h
  · rename_i hnone
    rw [if_pos]
    · exact h
    · rw [List.isEmpty_iff, List.filterMap_eq_nil_iff] at hnone ⊢
      intro r hr
      have hfine := hnone r hr
      cases r with
      | ok d => rfl
      | error issue => cases hfine
  · cases h

theorem Module.ofTokens_source {source : String} {toks : List Token} {stop : Pos} {m : Module}
    (h : ofTokens source toks stop = .ok m) (source' : String) :
    ofTokens source' toks stop = .ok m := by
  unfold ofTokens at h ⊢
  split at h
  · cases h
  · rename_i pos name c hheader
    cases hds : Decl.ofItems source (Item.split c.toks) with
    | error es =>
      rw [hds] at h
      cases h
    | ok ds =>
      rw [hds] at h
      simp only [Decl.ofItems_source hds source']
      exact h

theorem Fragment.ofText_source {source text : String} {f : Fragment}
    (h : ofText source text = .ok f) (source' : String) : ofText source' text = .ok f := by
  unfold ofText at h ⊢
  cases hlex : Lexed.ofText source text with
  | error e =>
    rw [hlex] at h
    cases h
  | ok lexed =>
    rw [Lexed.ofText_source hlex source']
    rw [hlex] at h
    obtain ⟨tokens, stop⟩ := lexed
    simp only at h ⊢
    cases tokens with
    | nil => exact h
    | cons t toks =>
      simp only at h ⊢
      split at h
      · rename_i hkind
        rw [if_pos hkind]
        cases hm : Module.ofTokens source (t :: toks) stop with
        | error es =>
          rw [hm] at h
          cases h
        | ok m =>
          rw [hm] at h
          rw [Module.ofTokens_source hm source']
          exact h
      · rename_i hkind
        rw [if_neg hkind]
        unfold ofItems at h ⊢
        split at h
        · rename_i hall
          rw [if_pos hall]
          cases hds : Decl.ofItems source (Item.split (t :: toks)) with
          | error es =>
            rw [hds] at h
            cases h
          | ok ds =>
            rw [hds] at h
            rw [Decl.ofItems_source hds source']
            exact h
        · rename_i hall
          rw [if_neg hall]
          split at h
          · cases h
          · rename_i hany
            rw [if_neg hany]
            split at h
            · cases h
            · exact h

/-! ## Programs -/

namespace Program

variable {ps qs : List Piece} {p : Piece}

theorem written_append (ps qs : List Piece) : written (ps ++ qs) = written ps ++ written qs :=
  List.flatMap_append

theorem mem_lasting_append {as bs : List (Piece × Binding)} {b : Piece × Binding} :
    b ∈ lasting (as ++ bs) ↔
      (b ∈ lasting as ∧ b.2.name ∉ bs.map (·.2.name)) ∨ b ∈ lasting bs := by
  induction as with
  | nil => simp [lasting]
  | cons a as ih =>
    simp only [List.cons_append, lasting, List.map_append, List.mem_append]
    by_cases hmem : a.2.name ∈ as.map (·.2.name)
    · simp only [hmem, true_or, if_true, ih]
    · by_cases hb : a.2.name ∈ bs.map (·.2.name)
      · simp only [hmem, hb, or_true, if_true, if_false, ih, List.mem_cons]
        constructor
        · exact Or.imp_left fun h => ⟨.inr h.1, h.2⟩
        · rintro (⟨rfl | h, hn⟩ | h)
          · exact absurd hb hn
          · exact .inl ⟨h, hn⟩
          · exact .inr h
      · simp only [hmem, hb, or_self, if_false, ih, List.mem_cons]
        constructor
        · rintro (rfl | ⟨h, hn⟩ | h)
          · exact .inl ⟨.inl rfl, hb⟩
          · exact .inl ⟨.inr h, hn⟩
          · exact .inr h
        · rintro (⟨rfl | h, hn⟩ | h)
          · exact .inl rfl
          · exact .inr (.inl ⟨h, hn⟩)
          · exact .inr (.inr h)

theorem mem_of_lasting {bs : List (Piece × Binding)} {b : Piece × Binding} (h : b ∈ lasting bs) :
    b ∈ bs := by
  induction bs with
  | nil => exact h
  | cons a bs ih =>
    rw [lasting] at h
    split at h
    · exact List.mem_cons_of_mem _ (ih h)
    · exact List.mem_cons.mpr ((List.mem_cons.mp h).imp_right ih)

theorem lasting_map (f : Piece → Piece) (bs : List (Piece × Binding)) :
    lasting (bs.map (Prod.map f id)) = (lasting bs).map (Prod.map f id) := by
  induction bs with
  | nil => rfl
  | cons b bs ih =>
    have hnames : (bs.map (Prod.map f id)).map (·.2.name) = bs.map (·.2.name) := by
      rw [List.map_map]
      rfl
    rw [List.map_cons, lasting, lasting, hnames, ih]
    split <;> rename_i hb
    · rw [if_pos (by exact hb)]
    · rw [if_neg (by exact hb)]
      rfl

theorem lasting_renamed (source : String) {source' : String} {ds : List Decl} {b : Binding}
    (h : (p, b) ∈ lasting (written [⟨source', ds⟩])) :
    p = ⟨source', ds⟩ ∧ (⟨source, ds⟩, b) ∈ lasting (written [⟨source, ds⟩]) := by
  have hwritten : written [⟨source', ds⟩] =
      (written [⟨source, ds⟩]).map (Prod.map (fun _ => ⟨source', ds⟩) id) := by
    simp [written, Piece.bindings, Prod.map]
  rw [hwritten, lasting_map] at h
  obtain ⟨⟨q, c⟩, hc, he⟩ := List.mem_map.mp h
  obtain ⟨rfl, rfl⟩ := Prod.mk.inj he
  have hq : q = ⟨source, ds⟩ := by
    have := mem_of_lasting hc
    simp only [written, List.flatMap_cons, List.flatMap_nil, List.append_nil, List.mem_map] at this
    obtain ⟨_, _, he⟩ := this
    exact (Prod.mk.inj he).1.symm
  exact ⟨rfl, hq ▸ hc⟩

theorem mem_modules {i : String} :
    i ∈ modules ps ↔ ∃ p ∈ ps, i ∈ p.decls.filterMap Decl.imported? := by
  rw [modules, List.mem_eraseDups, List.mem_flatMap]

theorem modules_append {i : String} : i ∈ modules (ps ++ qs) ↔ i ∈ modules ps ∨ i ∈ modules qs := by
  simp only [mem_modules, List.mem_append, or_and_right, exists_or]

theorem modules_singleton {i : String} :
    i ∈ modules [p] ↔ i ∈ p.decls.filterMap Decl.imported? := by
  simp only [mem_modules, List.mem_singleton, exists_eq_left]

theorem Defines.mono {exports exports' : Table (List String)} {v : Variable}
    (h : Defines ps exports v) (he : exports ⊆ exports')
    (hb : ∀ p ∈ ps, ∃ q ∈ qs, p.bound ⊆ q.bound) : Defines qs exports' v := by
  cases v with
  | plain x =>
    rcases h with h | ⟨mod, names, hm, hx⟩ | ⟨p, hp, hx⟩
    · exact .inl h
    · exact .inr (.inl ⟨mod, names, he hm, hx⟩)
    · obtain ⟨q, hq, hsub⟩ := hb p hp
      exact .inr (.inr ⟨q, hq, hsub hx⟩)
  | qualified mod x =>
    obtain ⟨names, hm, hx⟩ := h
    exact ⟨names, he hm, hx⟩

end Program

theorem Piece.WellFormed.source {source source' : String} {decls : List Decl}
    (h : Piece.WellFormed ⟨source, decls⟩) : Piece.WellFormed ⟨source', decls⟩ :=
  ⟨h.signed, h.bound, h.accompanied, h.kinded⟩

/-! ## Acceptance -/

namespace Interpreter

open Program (modules)

variable {ip : Interpreter} {known : String → Option ModuleCode} {name : String} {ps : List Piece}

/-- A program is accepted if what it imports is loadable and it is well-formed with it. -/
structure Acceptable (ip : Interpreter) (known : String → Option ModuleCode) (ps : List Piece) :
    Prop where
  imports : ∀ i ∈ modules ps, Loadable ip.locator known i
  wellFormed : Program.WellFormed ps (importsOf ip.locator known ps)

theorem compiled_isOk (hps : PlainPieces ps) :
    (ip.compiled known name ps).isOk = true ↔ Acceptable ip known ps := by
  have hplain : ∀ i ∈ modules ps, Plain i := by
    intro i hi
    rw [← Program.names_imports] at hi
    obtain ⟨q, hq, rfl⟩ := List.mem_map.mp hi
    exact plain_imports hps q hq
  have hdecided : ∀ i ∈ modules ps, ∃ o, Decides ip.locator known
      (resolve ip.locator known (ip.locator.size + 2) [] i) i o :=
    fun i hi => decides_resolve _ below_nil (hplain i hi) (Nat.le_refl _)
  obtain ⟨outcome, hdecides⟩ := outcomes_of_decides hdecided
  have himported := hdecides
  rw [← Program.names_imports] at himported
  rw [compiled_eq, (decides_importAll himported _ (sound_fresh (truthful_empty rfl))).1,
    Program.names_imports]
  have hcheck : ∀ c, Program.check name ps ((modules ps).map fun i => (i, outcome i)) = .ok c ↔
      (∀ i ∈ modules ps, Loadable ip.locator known i) ∧
        Program.WellFormed ps (importsOf ip.locator known ps) ∧ c = _ := fun c => by
    rw [check_decided fun i hi => (hdecides i hi).exports, Program.check_resolved]
    rw [importsOf, Table.names, List.map_map]
    exact List.map_id _
  constructor
  · intro h
    cases hc : Program.check name ps ((modules ps).map fun i => (i, outcome i)) with
    | error ds =>
      rw [hc] at h
      cases h
    | ok c =>
      obtain ⟨hl, hw, -⟩ := (hcheck c).mp hc
      exact ⟨hl, hw⟩
  · intro h
    rw [(hcheck _).mpr ⟨h.imports, h.wellFormed, rfl⟩]
    rfl

/-- All that the first program has is in the second one. -/
structure Covered (qs rs : List Piece) : Prop where
  imports : modules qs ⊆ modules rs
  bound : ∀ q ∈ qs, ∃ r ∈ rs, q.bound ⊆ r.bound

/-- A program is accepted if all that counts in it counted in programs that are, and these are covered
by it. -/
theorem acceptable_of_covered {rs : List Piece} (hp : ∀ p ∈ rs, p.WellFormed)
    (hi : ∀ i ∈ modules rs, Loadable ip.locator known i)
    (hb : ∀ p b, (p, b) ∈ Program.lasting (Program.written rs) → ∃ qs q, Acceptable ip known qs ∧
      (q, b) ∈ Program.lasting (Program.written qs) ∧ Covered qs rs) : Acceptable ip known rs := by
  refine ⟨hi, hp, fun p b hm v hv => ?_⟩
  obtain ⟨qs, q, hq, hm', hcovered⟩ := hb p b hm
  exact (hq.wellFormed.defined q b hm' v hv).imp_right
    (·.mono (List.map_subset _ hcovered.imports) hcovered.bound)

section
variable {source source' : String} {ds : List Decl} {q : Piece}

theorem covered_renamed (source' : String) :
    Covered (ps ++ [⟨source, ds⟩]) (ps ++ [⟨source', ds⟩] ++ [q]) where
  imports i hi := by
    simp only [Program.modules_append, Program.modules_singleton] at hi ⊢
    exact .inl hi
  bound p hp := by
    rcases List.mem_append.mp hp with hp | hp
    · exact ⟨p, by simp [hp], List.Subset.refl _⟩
    · rw [List.mem_singleton.mp hp]
      exact ⟨⟨source', ds⟩, by simp, List.Subset.refl _⟩

theorem covered_around (p : Piece) : Covered (ps ++ [q]) (ps ++ [p] ++ [q]) where
  imports i hi := by
    simp only [Program.modules_append] at hi ⊢
    tauto
  bound r hr := by
    refine ⟨r, ?_, List.Subset.refl _⟩
    simp only [List.mem_append] at hr ⊢
    tauto

theorem wellFormed_renamed (hd : Acceptable ip known (ps ++ [⟨source, ds⟩])) (hq : q.WellFormed) :
    ∀ p ∈ ps ++ [⟨source', ds⟩] ++ [q], p.WellFormed := by
  intro p hp
  simp only [List.mem_append, List.mem_singleton] at hp
  rcases hp with (hp | rfl) | rfl
  · exact hd.wellFormed.pieces p (List.mem_append_left _ hp)
  · exact (hd.wellFormed.pieces ⟨source, ds⟩ (by simp)).source
  · exact hq

theorem lasting_last {p : Piece} {b : Binding}
    (hb : (p, b) ∈ Program.lasting (Program.written [⟨source', ds⟩])) :
    (⟨source, ds⟩, b) ∈ Program.lasting (Program.written (ps ++ [⟨source, ds⟩])) := by
  rw [Program.written_append, Program.mem_lasting_append]
  exact .inr (Program.lasting_renamed source hb).2

/-- Declarations that are accepted at the end of a program may stand before other declarations that
are, whatever their source is called. -/
theorem Acceptable.between (hd : Acceptable ip known (ps ++ [⟨source, ds⟩]))
    (hq : Acceptable ip known (ps ++ [q])) :
    Acceptable ip known (ps ++ [⟨source', ds⟩] ++ [q]) := by
  refine acceptable_of_covered (wellFormed_renamed hd (hq.wellFormed.pieces q (by simp))) ?_ ?_
  · intro i hi
    rcases Program.modules_append.mp hi with hi | hi
    · refine hd.imports i ?_
      simpa only [Program.modules_append, Program.modules_singleton] using hi
    · exact hq.imports i (Program.modules_append.mpr (.inr hi))
  · intro p b hb
    rw [Program.written_append, Program.written_append, Program.mem_lasting_append,
      Program.mem_lasting_append] at hb
    rcases hb with ⟨⟨hb, -⟩ | hb, hn⟩ | hb
    · refine ⟨_, p, hq, ?_, covered_around _⟩
      rw [Program.written_append, Program.mem_lasting_append]
      exact .inl ⟨hb, hn⟩
    · exact ⟨_, _, hd, lasting_last hb, covered_renamed source'⟩
    · refine ⟨_, p, hq, ?_, covered_around _⟩
      rw [Program.written_append, Program.mem_lasting_append]
      exact .inr hb

theorem Acceptable.closed (hd : Acceptable ip known (ps ++ [⟨source, ds⟩])) (source'' : String) :
    Acceptable ip known (ps ++ [⟨source', ds⟩] ++ [⟨source'', []⟩]) := by
  have hempty : Piece.WellFormed ⟨source'', []⟩ :=
    ⟨List.nodup_nil, List.nodup_nil, List.Subset.refl _, nofun⟩
  refine acceptable_of_covered (wellFormed_renamed hd hempty) ?_ ?_
  · intro i hi
    refine hd.imports i ?_
    simpa only [Program.modules_append, Program.modules_singleton, List.filterMap_nil,
      List.not_mem_nil, or_false] using hi
  · intro p b hb
    have hnil : Program.written [⟨source'', []⟩] = [] := rfl
    rw [Program.written_append, hnil, List.append_nil, Program.written_append,
      Program.mem_lasting_append] at hb
    rcases hb with ⟨hb, hn⟩ | hb
    · refine ⟨_, p, hd, ?_, covered_renamed source'⟩
      rw [Program.written_append, Program.mem_lasting_append]
      refine .inl ⟨hb, ?_⟩
      simpa [Program.written, Piece.bindings] using hn
    · exact ⟨_, _, hd, lasting_last hb, covered_renamed source'⟩

end

/-! ## Verdicts -/

variable {history : History}

theorem isOk_map {α β ε : Type} (f : α → β) (x : Except ε α) : (x.map f).isOk = x.isOk := by
  cases x <;> rfl

theorem compiledBehind_isOk {decls : List Decl} (hd : ∀ d ∈ decls, PlainImport d) :
    (ip.compiledBehind known history name decls).isOk = true ↔
      ∃ ps, pieces 0 history.program = (ps, []) ∧
        Acceptable ip known (ps ++ [⟨fragmentSource, decls⟩]) := by
  have hplain := plain_pieces history.program 0
  unfold compiledBehind
  generalize pieces 0 history.program = q at hplain ⊢
  obtain ⟨ps, ds⟩ := q
  have hall : PlainPieces (ps ++ [⟨fragmentSource, decls⟩]) :=
    List.forall_mem_append.mpr ⟨hplain, List.forall_mem_singleton.mpr hd⟩
  cases ds with
  | nil =>
    simp only [List.isEmpty_nil, if_true, compiled_isOk hall]
    exact ⟨fun h => ⟨ps, rfl, h⟩, by rintro ⟨_, ⟨⟩, h⟩; exact h⟩
  | cons d ds => exact ⟨nofun, nofun⟩

/-- Definitions that have been accepted are one more piece, under the next number. -/
theorem pieces_prepend {ps : List Piece} {text source : String} {decls : List Decl}
    (h : pieces 0 history.program = (ps, []))
    (ht : Fragment.ofText source text = .ok (.definitions decls)) :
    pieces 0 (history.prepend [text]).program =
      (ps ++ [⟨definitionSource history.program.length, decls⟩], []) := by
  have hprogram : (history.prepend [text]).program = history.program ++ [text] := by
    simp [History.program, History.prepend]
  rw [hprogram]
  refine pieces_append _ _ h ?_
  rw [Nat.zero_add, pieces, Fragment.ofText_source ht]
  rfl

/-- What is accepted behind some definitions is accepted behind more of them that are. -/
theorem compiledBehind_prepend {text source name' : String} {ds decls : List Decl}
    (ht : Fragment.ofText source text = .ok (.definitions ds))
    (hds : ∀ d ∈ ds, PlainImport d) (hdecls : ∀ d ∈ decls, PlainImport d)
    (hd : (ip.compiledBehind known history definitionsModule ds).isOk = true)
    (h : (ip.compiledBehind known history name decls).isOk = true) :
    (ip.compiledBehind known (history.prepend [text]) name' decls).isOk = true := by
  obtain ⟨ps, hps, hd⟩ := (compiledBehind_isOk hds).mp hd
  obtain ⟨ps', hps', h⟩ := (compiledBehind_isOk hdecls).mp h
  obtain rfl : ps = ps' := (Prod.mk.inj (hps.symm.trans hps')).1
  exact (compiledBehind_isOk hdecls).mpr ⟨_, pieces_prepend hps ht, hd.between h⟩

/-- Definitions that are accepted put an end to nothing that is. -/
theorem verdict_prepend {d t : String} {ds : List Decl}
    (hd : Fragment.ofText fragmentSource d = .ok (.definitions ds))
    (haccept : (ip.verdict known history d).isOk = true)
    (h : (ip.verdict known history t).isOk = true) :
    (ip.verdict known (history.prepend [d]) t).isOk = true := by
  have hds : ∀ x ∈ ds, PlainImport x :=
    Fragment.each_ofText reads_plainImport (fun _ => plain_tokens) hd
  unfold verdict at haccept h ⊢
  rw [hd] at haccept
  simp only [isOk_map] at haccept
  cases hread : Fragment.ofText fragmentSource t with
  | error es =>
    rw [hread] at h
    cases h
  | ok f =>
    rw [hread] at h
    have hplain := Fragment.each_ofText reads_plainImport (fun _ => plain_tokens) hread
    cases f with
    | module m => exact h
    | definitions decls =>
      simp only [isOk_map] at h ⊢
      exact compiledBehind_prepend hd hds hplain haccept h
    | expression e =>
      simp only [isOk_map] at h ⊢
      exact compiledBehind_prepend hd hds (List.forall_mem_singleton.mpr trivial) haccept h

/-- Behind definitions that are accepted, nothing at all is accepted too. -/
theorem verdict_prepend_nothing {d t : String} {ds : List Decl}
    (hd : Fragment.ofText fragmentSource d = .ok (.definitions ds))
    (haccept : (ip.verdict known history d).isOk = true)
    (ht : Fragment.ofText fragmentSource t = .ok (.definitions [])) :
    (ip.verdict known (history.prepend [d]) t).isOk = true := by
  unfold verdict at haccept ⊢
  rw [hd] at haccept
  rw [ht]
  simp only [isOk_map] at haccept ⊢
  obtain ⟨ps, hps, hacceptable⟩ := (compiledBehind_isOk
    (Fragment.each_ofText reads_plainImport (fun _ => plain_tokens) hd)).mp haccept
  have hnone : ∀ x ∈ ([] : List Decl), PlainImport x := nofun
  exact (compiledBehind_isOk hnone).mpr ⟨_, pieces_prepend hps hd, hacceptable.closed _⟩

end Interpreter

end LazySession

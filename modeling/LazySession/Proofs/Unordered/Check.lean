import LazySession.Check.Program
import LazySession.Proofs.Table
import Mathlib.Data.Set.Functor

/-!
# Checking with tables gone through in any order

Two steps of a check go through a table: complaints about signatures without a binding are made for
one name after the other, and a definition that is replaced moves the places of those behind it.
`Unordered.check` leaves the order open. If no two of the signatures without a binding stand in one
place, the check comes to what `Program.check` says, whatever the order: `Unordered.check_eq`.
-/

namespace LazySession

namespace Unordered

/-! ## Work with several outcomes -/

section
variable {α β : Type}

/-- The entries of a table in any order. -/
def anyOrder (l : List α) : SetM (List α) :=
  show Set (List α) from { l' | l'.Perm l }

/-- There is an outcome, and all of them have `Q`. -/
def Ends (x : SetM α) (Q : α → Prop) : Prop :=
  (∃ a, a ∈ x.run) ∧ ∀ a ∈ x.run, Q a

theorem mem_bind {x : SetM α} {f : α → SetM β} {b : β} :
    b ∈ (x >>= f).run ↔ ∃ a ∈ x.run, b ∈ (f a).run := by
  show b ∈ (Set.iUnion fun a => Set.iUnion fun _ : a ∈ x.run => (f a).run) ↔ _
  simp

theorem mem_pure {a b : α} : b ∈ (pure a : SetM α).run ↔ b = a := Iff.rfl

theorem ends_pure {a : α} {Q : α → Prop} (h : Q a) : Ends (pure a) Q := by
  refine ⟨⟨a, mem_pure.mpr rfl⟩, fun b hb => ?_⟩
  rw [mem_pure.mp hb]
  exact h

theorem ends_anyOrder {l : List α} {Q : List α → Prop} (h : ∀ l', l'.Perm l → Q l') :
    Ends (anyOrder l) Q :=
  ⟨⟨l, .refl l⟩, h⟩

variable {x : SetM α} {f : α → SetM β} {Q Q' : α → Prop} {R : β → Prop}

theorem Ends.mono (h : Ends x Q) (hQ : ∀ a, Q a → Q' a) : Ends x Q' :=
  ⟨h.1, fun a ha => hQ a (h.2 a ha)⟩

theorem Ends.bind (h : Ends x Q) (hf : ∀ a, Q a → Ends (f a) R) : Ends (x >>= f) R := by
  obtain ⟨⟨a, ha⟩, hall⟩ := h
  obtain ⟨b, hb⟩ := (hf a (hall a ha)).1
  refine ⟨⟨b, mem_bind.mpr ⟨a, ha, hb⟩⟩, fun c hc => ?_⟩
  obtain ⟨a', ha', hc⟩ := mem_bind.mp hc
  exact (hf a' (hall a' ha')).2 c hc

theorem Ends.eq_pure {a : α} (h : Ends x (· = a)) : x = pure a := by
  obtain ⟨⟨b, hb⟩, hall⟩ := h
  refine Set.ext fun c => ⟨hall c, fun hc => ?_⟩
  have hca : c = a := hc
  rw [hca, ← hall b hb]
  exact hb

end

/-! ## The steps -/

/-- Signatures of names that the piece does not bind, one name after the other in any order. -/
def unboundSignatures (p : Piece) : SetM (List TypeExpr.Remark) := do
  let bound := p.bindings.map (·.name)
  return (← anyOrder p.signatures).filterMap fun (n, pos, _) =>
    if bound.contains n then none else some (pos, .noBinding n)

def diagnostics (p : Piece) : SetM (List Diagnostic) := do
  return (Piece.remarksFrom [] [] p.decls ++ (← unboundSignatures p)).map
    fun (pos, c) => ⟨p.source, pos, c⟩

/-- Definitions, and the place of each name among them. -/
structure Slots where
  defs : List Definition
  places : Table Nat

/-- The place `i` is gone, and those behind it move up, one after the other in any order. -/
def closeGap (i : Nat) (places : Table Nat) : SetM (Table Nat) := do
  return (← anyOrder places).foldl (fun places (n, j) =>
    if i < j then places.put n (j - 1) else places) places

def dropDefinition (s : Slots) (name : String) : SetM Slots :=
  match s.places.get? name with
  | none => return s
  | some i => return ⟨s.defs.eraseIdx i, ← closeGap i s.places⟩

/-- A definition takes the last place and the one of the same name goes. -/
def addDefinition (s : Slots) (d : Definition) : SetM Slots := do
  let s ← dropDefinition s d.binding.name
  return ⟨s.defs ++ [d], s.places.put d.binding.name s.defs.length⟩

def definitions (ps : List Piece) : SetM Slots :=
  (ps.flatMap (·.definitions)).foldlM addDefinition ⟨[], []⟩

/-- The end of a check: `said` is what is said about the pieces, `defs` are the definitions that
count. -/
def conclude (name : String) (ps : List Piece) (imported : Table Program.Import)
    (said : List Diagnostic) (defs : List Definition) : Except (List Diagnostic) ModuleCode :=
  let others := Program.visible [] imported
  let vis := { others with plain := defs.map (·.binding.name) ++ others.plain }
  let ds := said ++
    (Program.imports ps).flatMap (fun (source, pos, mod) =>
      Program.importDiagnostics source pos mod ((imported.get? mod).getD .unknown)) ++
    defs.flatMap fun d => (d.binding.body.check vis (Expr.paramNames d.binding.params)).map
      fun (pos, c) => ⟨d.source, pos, c⟩
  if ds.isEmpty then .ok { name, imports := (Program.imports ps).map (·.2.2), defs }
  else .error (Diagnostic.sort (ps.map (·.source)) ds)

def check (name : String) (ps : List Piece) (imported : Table Program.Import) :
    SetM (Except (List Diagnostic) ModuleCode) := do
  let said ← ps.mapM diagnostics
  let s ← definitions ps
  return conclude name ps imported said.flatten s.defs

theorem conclude_definitions (name : String) (ps : List Piece) (imported : Table Program.Import) :
    conclude name ps imported (ps.flatMap (·.diagnostics)) (Program.definitions ps) =
      Program.check name ps imported := by
  have hvis : { Program.visible [] imported with
      plain := (Program.definitions ps).map (·.binding.name) ++ (Program.visible [] imported).plain } =
      Program.visible ps imported := by
    simp [Program.visible, Program.definitions]
  unfold conclude
  simp only [hvis]
  rfl

/-! ## Places of definitions -/

/-- The number of a place once the place `i` is gone. -/
def above (i j : Nat) : Nat := if i < j then j - 1 else j

theorem get?_foldl_closeGap (i : Nat) (n : String) (es : Table Nat) : ∀ t : Table Nat,
    es.names.Nodup →
    Table.get? (es.foldl (fun places (n, j) => if i < j then places.put n (j - 1) else places) t) n =
      match es.get? n with
      | some j => if i < j then some (j - 1) else t.get? n
      | none => t.get? n := by
  induction es with
  | nil => intro t _; rfl
  | cons e es ih =>
    obtain ⟨m, j⟩ := e
    intro t hes
    simp only [Table.names, List.map_cons, List.nodup_cons] at hes
    rw [List.foldl_cons, ih _ hes.2]
    by_cases hm : m = n
    · subst hm
      rw [Table.get?_eq_none.mpr hes.1]
      by_cases hj : i < j <;> simp [Table.get?, Table.get?_put, hj]
    · by_cases hj : i < j <;> simp [Table.get?, Table.get?_put, hj, hm]

theorem names_foldl_closeGap (i : Nat) (es : Table Nat) : ∀ t : Table Nat,
    (∀ n ∈ es.names, n ∈ t.names) →
    Table.names (es.foldl (fun places (n, j) =>
      if i < j then places.put n (j - 1) else places) t) = t.names := by
  induction es with
  | nil => intro t _; rfl
  | cons e es ih =>
    obtain ⟨m, j⟩ := e
    intro t hes
    rw [Table.names, List.map_cons, List.forall_mem_cons] at hes
    have hstep : (if i < j then t.put m (j - 1) else t).names = t.names := by
      split
      · rw [Table.names_put, if_pos hes.1]
      · rfl
    rw [List.foldl_cons]
    exact (ih _ fun n hn => hstep ▸ hes.2 n hn).trans hstep

theorem ends_closeGap {places : Table Nat} (hn : places.names.Nodup) (i : Nat) :
    Ends (closeGap i places) fun t => t.names = places.names ∧
      ∀ n, t.get? n = (places.get? n).map (above i) := by
  refine Ends.bind (ends_anyOrder fun es hes => hes) fun es (hes : es.Perm places) => ends_pure ?_
  have hnames : (Table.names es).Perm places.names := hes.map _
  refine ⟨names_foldl_closeGap i es places fun n hm => hnames.mem_iff.mp hm, fun n => ?_⟩
  rw [get?_foldl_closeGap i n es places (hnames.nodup_iff.mpr hn), Table.get?_perm hn hes]
  cases places.get? n with
  | none => rfl
  | some j => by_cases hj : i < j <;> simp [above, hj]

def Slots.names (s : Slots) : List String := s.defs.map (·.binding.name)

/-- Every name is there once, in the place that is known. -/
structure Slots.Right (s : Slots) : Prop where
  nodup : s.places.names.Nodup
  once : s.names.Nodup
  place : ∀ n i, s.places.get? n = some i ↔ s.names[i]? = some n

/-- So it is with all names but `n`, which is not there. -/
structure Slots.RightBut (n : String) (s : Slots) : Prop where
  nodup : s.places.names.Nodup
  once : s.names.Nodup
  free : n ∉ s.names
  place : ∀ m i, m ≠ n → (s.places.get? m = some i ↔ s.names[i]? = some m)

theorem Slots.RightBut.add {s : Slots} {d : Definition} (h : s.RightBut d.binding.name) :
    Slots.Right ⟨s.defs ++ [d], s.places.put d.binding.name s.defs.length⟩ := by
  have hnames : Slots.names ⟨s.defs ++ [d], s.places.put d.binding.name s.defs.length⟩ =
      s.names ++ [d.binding.name] := by
    simp [Slots.names]
  have hlength : s.defs.length = s.names.length := by simp [Slots.names]
  refine ⟨Table.nodup_put h.nodup _ _, ?_, fun m i => ?_⟩
  · rw [hnames]
    refine List.nodup_append.mpr ⟨h.once, by simp, fun a ha b hb he => h.free ?_⟩
    rw [← List.mem_singleton.mp hb, ← he]
    exact ha
  · rw [hnames, Table.get?_put, hlength]
    by_cases hm : d.binding.name = m
    · subst hm
      have hfree : s.names[i]? ≠ some d.binding.name := fun hi => h.free (List.mem_of_getElem? hi)
      rw [List.getElem?_append]
      split <;> grind
    · rw [if_neg hm, h.place m i (Ne.symm hm), List.getElem?_append]
      split <;> grind

theorem Slots.Right.rightBut {s : Slots} (h : s.Right) {n : String} (hn : s.places.get? n = none) :
    s.RightBut n where
  nodup := h.nodup
  once := h.once
  free hm := by
    obtain ⟨i, hi⟩ := List.mem_iff_getElem?.mp hm
    rw [(h.place n i).mpr hi] at hn
    cases hn
  place m i _ := h.place m i

theorem eraseIdx_eq_filter {n : String} (defs : List Definition) : ∀ {i : Nat},
    (defs.map (·.binding.name)).Nodup → (defs.map (·.binding.name))[i]? = some n →
    defs.eraseIdx i = defs.filter (·.binding.name ≠ n) := by
  induction defs with
  | nil => intro i _ h; simp at h
  | cons d defs ih =>
    intro i hn h
    rw [List.map_cons, List.nodup_cons] at hn
    cases i with
    | zero =>
      have hd : d.binding.name = n := by simpa using h
      have hrest : defs.filter (·.binding.name ≠ n) = defs := by
        refine List.filter_eq_self.mpr fun e he => ?_
        have hne : e.binding.name ≠ n := fun hen =>
          hn.1 (List.mem_map.mpr ⟨e, he, hen.trans hd.symm⟩)
        simpa using hne
      simp only [ne_eq, decide_not] at hrest
      simp [hd, hrest]
    | succ i =>
      rw [List.map_cons, List.getElem?_cons_succ] at h
      have hne : d.binding.name ≠ n := fun he => hn.1 (he ▸ List.mem_of_getElem? h)
      simp [hne, ih hn.2 h]

theorem Slots.Right.erase {s : Slots} (h : s.Right) {n : String} {i : Nat}
    (hi : s.places.get? n = some i) {t : Table Nat} (ht : t.names = s.places.names)
    (hget : ∀ m, t.get? m = (s.places.get? m).map (above i)) :
    Slots.RightBut n ⟨s.defs.eraseIdx i, t⟩ := by
  have hat := (h.place n i).mp hi
  have hfilter : s.defs.eraseIdx i = s.defs.filter (·.binding.name ≠ n) :=
    eraseIdx_eq_filter s.defs h.once hat
  refine ⟨ht ▸ h.nodup, ?_, ?_, fun m k hm => ?_⟩
  · exact h.once.sublist ((List.eraseIdx_sublist _ _).map _)
  · simp [Slots.names, hfilter]
  · have hne : ∀ j, s.names[j]? = some m → j ≠ i := by
      rintro j hj rfl
      rw [hat] at hj
      exact hm (Option.some.inj hj).symm
    have hk : (Slots.names ⟨s.defs.eraseIdx i, t⟩)[k]? =
        if k < i then s.names[k]? else s.names[k + 1]? := by
      simp only [Slots.names, List.getElem?_map, List.getElem?_eraseIdx]
      split <;> rfl
    simp only [hk, hget, Option.map_eq_some_iff, h.place, above]
    constructor
    · rintro ⟨j, hj, rfl⟩
      have := hne j hj
      grind
    · intro hk
      split at hk
      · exact ⟨k, hk, by grind⟩
      · have := hne _ hk
        exact ⟨k + 1, hk, by grind⟩

theorem ends_dropDefinition {s : Slots} (h : s.Right) (n : String) :
    Ends (dropDefinition s n) fun s' =>
      s'.defs = s.defs.filter (·.binding.name ≠ n) ∧ s'.RightBut n := by
  unfold dropDefinition
  cases hi : s.places.get? n with
  | none =>
    have hbut := h.rightBut hi
    refine ends_pure ⟨(List.filter_eq_self.mpr fun e he => ?_).symm, hbut⟩
    simpa using fun hen => hbut.free (List.mem_map.mpr ⟨e, he, hen⟩)
  | some i =>
    refine (ends_closeGap h.nodup i).bind fun t ht => ends_pure ⟨?_, h.erase hi ht.1 ht.2⟩
    exact eraseIdx_eq_filter s.defs h.once ((h.place _ i).mp hi)

theorem ends_addDefinition {s : Slots} (h : s.Right) (d : Definition) :
    Ends (addDefinition s d) fun s' => s'.defs = Program.addDefinition s.defs d ∧ s'.Right := by
  refine (ends_dropDefinition h d.binding.name).bind fun s' hs' => ends_pure ⟨?_, hs'.2.add⟩
  rw [hs'.1]
  rfl

theorem ends_definitions (ps : List Piece) :
    Ends (definitions ps) fun s => s.defs = Program.definitions ps := by
  have step : ∀ (ds : List Definition) (s : Slots), s.Right →
      Ends (ds.foldlM addDefinition s) fun s' => s'.defs = ds.foldl Program.addDefinition s.defs := by
    intro ds
    induction ds with
    | nil => intro s _; exact ends_pure rfl
    | cons d ds ih =>
      intro s hs
      rw [List.foldlM_cons]
      refine (ends_addDefinition hs d).bind fun s' hs' => ?_
      rw [List.foldl_cons, ← hs'.1]
      exact ih s' hs'.2
  exact step _ ⟨[], []⟩ ⟨List.nodup_nil, List.nodup_nil, by simp [Table.get?, Slots.names]⟩

/-! ## Places of complaints -/

section
variable {α : Type} (le : α → α → Bool)

/-- The elements that a stable sort leaves in their order beside `a`. -/
def beside (a : α) (l : List α) : List α := l.filter fun b => le a b && le b a

variable {le} (htotal : ∀ a b, (le a b || le b a) = true)
include htotal

theorem eq_of_beside {l : List α} : ∀ {l' : List α}, l.Pairwise (fun a b => le a b = true) →
    l'.Pairwise (fun a b => le a b = true) → (∀ a, beside le a l = beside le a l') → l = l' := by
  have hrefl : ∀ a, le a a = true := fun a => by simpa using htotal a a
  have hmem : ∀ {l l' : List α}, (∀ a, beside le a l = beside le a l') → ∀ a ∈ l, a ∈ l' := by
    intro l l' h a ha
    have : a ∈ beside le a l' := by
      rw [← h a]
      simp [beside, ha, hrefl]
    exact (List.mem_filter.mp this).1
  induction l with
  | nil =>
    intro l' _ _ h
    cases l' with
    | nil => rfl
    | cons b l' => exact absurd (hmem (fun a => (h a).symm) b List.mem_cons_self) List.not_mem_nil
  | cons a l ih =>
    intro l' hl hl' h
    cases l' with
    | nil => exact absurd (hmem h a List.mem_cons_self) List.not_mem_nil
    | cons b l' =>
      rw [List.pairwise_cons] at hl hl'
      -- each of the two heads is before the other, and so they are the same
      have hab : le a b = true := by
        rcases List.mem_cons.mp (hmem (fun a => (h a).symm) b List.mem_cons_self) with rfl | hb
        · exact hrefl b
        · exact hl.1 b hb
      have hba : le b a = true := by
        rcases List.mem_cons.mp (hmem h a List.mem_cons_self) with rfl | ha
        · exact hrefl a
        · exact hl'.1 a ha
      have hhead := h a
      simp only [beside, List.filter_cons, hrefl, hab, hba, Bool.and_self, if_true,
        List.cons.injEq] at hhead
      obtain ⟨rfl, -⟩ := hhead
      refine congrArg (a :: ·) (ih hl.2 hl'.2 fun c => ?_)
      have hc := h c
      simp only [beside, List.filter_cons] at hc ⊢
      split at hc
      · exact (List.cons.inj hc).2
      · exact hc

variable (htrans : ∀ a b c, le a b = true → le b c = true → le a c = true)
include htrans

theorem beside_mergeSort (a : α) (l : List α) : beside le a (l.mergeSort le) = beside le a l := by
  have hpairwise : (beside le a l).Pairwise fun b c => le b c = true := by
    refine List.pairwise_of_forall_mem_list fun b hb c hc => ?_
    simp only [beside, List.mem_filter, Bool.and_eq_true] at hb hc
    exact htrans b a c hb.2.2 hc.2.1
  have hsub := (List.sublist_mergeSort htrans htotal hpairwise List.filter_sublist).filter
    fun b => le a b && le b a
  rw [beside, List.filter_filter] at hsub
  simp only [Bool.and_self] at hsub
  refine (hsub.eq_of_length ?_).symm
  exact ((List.mergeSort_perm l le).filter _).length_eq.symm

theorem mergeSort_eq {l l' : List α} (h : ∀ a, beside le a l = beside le a l') :
    l.mergeSort le = l'.mergeSort le := by
  refine eq_of_beside htotal (List.pairwise_mergeSort htrans htotal l)
    (List.pairwise_mergeSort htrans htotal l') fun a => ?_
  rw [beside_mergeSort htotal htrans, beside_mergeSort htotal htrans, h a]

end

theorem before_trans (sources : List String) (a b c : Diagnostic)
    (hab : Diagnostic.before sources a b = true) (hbc : Diagnostic.before sources b c = true) :
    Diagnostic.before sources a c = true := by
  simp only [Diagnostic.before, Bool.or_eq_true, Bool.and_eq_true, decide_eq_true_eq,
    beq_iff_eq] at *
  omega

theorem before_total (sources : List String) (a b : Diagnostic) :
    (Diagnostic.before sources a b || Diagnostic.before sources b a) = true := by
  simp only [Diagnostic.before, Bool.or_eq_true, Bool.and_eq_true, decide_eq_true_eq,
    beq_iff_eq]
  omega

/-- No two signatures without a binding stand in one place. -/
def Apart (p : Piece) : Prop := (p.unboundSignatures.map (·.1)).Nodup

/-- The same is said, and in each place in the same order. -/
structure Interchanged (sources : List String) (ds ds' : List Diagnostic) : Prop where
  perm : ds.Perm ds'
  beside : ∀ a, beside (Diagnostic.before sources) a ds = beside (Diagnostic.before sources) a ds'

section
variable {sources : List String} {ds ds' es es' : List Diagnostic}

theorem Interchanged.append (h : Interchanged sources ds ds') (h' : Interchanged sources es es') :
    Interchanged sources (ds ++ es) (ds' ++ es') where
  perm := h.perm.append h'.perm
  beside a := by
    have hd := h.beside a
    have he := h'.beside a
    simp only [Unordered.beside, List.filter_append] at hd he ⊢
    rw [hd, he]

theorem Interchanged.refl (sources : List String) (ds : List Diagnostic) :
    Interchanged sources ds ds :=
  ⟨.refl ds, fun _ => rfl⟩

theorem Interchanged.sort (h : Interchanged sources ds ds') :
    Diagnostic.sort sources ds = Diagnostic.sort sources ds' :=
  mergeSort_eq (before_total sources) (before_trans sources) h.beside

theorem pos_eq_of_before {a b : Diagnostic} (hs : a.source = b.source)
    (hab : Diagnostic.before sources a b = true) (hba : Diagnostic.before sources b a = true) :
    a.pos = b.pos := by
  simp only [Diagnostic.before, hs, Bool.or_eq_true, Bool.and_eq_true, decide_eq_true_eq,
    beq_iff_eq] at hab hba
  have hpos : a.pos.line = b.pos.line ∧ a.pos.col = b.pos.col := by omega
  cases ha : a.pos
  cases hb : b.pos
  simp_all

theorem interchanged_of_apart {source : String} (hs : ∀ d ∈ ds, d.source = source)
    (hn : (ds.map (·.pos)).Nodup) (h : ds.Perm ds') : Interchanged sources ds ds' := by
  refine ⟨h, fun a => ?_⟩
  have hperm : (beside (Diagnostic.before sources) a ds).Perm
      (beside (Diagnostic.before sources) a ds') := h.filter _
  have hsub : (beside (Diagnostic.before sources) a ds).Sublist ds := List.filter_sublist
  have hnodup := hn.sublist (hsub.map _)
  -- what is beside `a` stands in one place, so there is at most one
  have hplace : ∀ b ∈ beside (Diagnostic.before sources) a ds,
      ∀ c ∈ beside (Diagnostic.before sources) a ds, b.pos = c.pos := by
    intro b hb c hc
    have hsource := (hs b (hsub.subset hb)).trans (hs c (hsub.subset hc)).symm
    simp only [beside, List.mem_filter, Bool.and_eq_true] at hb hc
    exact pos_eq_of_before hsource (before_trans sources b a c hb.2.2 hc.2.1)
      (before_trans sources c a b hc.2.2 hb.2.1)
  generalize beside (Diagnostic.before sources) a ds = l at hperm hnodup hplace
  match l with
  | [] => exact (List.nil_perm.mp hperm).symm
  | [d] => exact List.singleton_perm.mp hperm
  | b :: c :: l =>
    have := hplace b List.mem_cons_self c (List.mem_cons_of_mem _ List.mem_cons_self)
    simp [this] at hnodup

end

theorem ends_diagnostics {p : Piece} (hp : Apart p) (sources : List String) :
    Ends (diagnostics p) fun ds => Interchanged sources ds p.diagnostics := by
  have hunbound : Ends (unboundSignatures p) fun rs => rs.Perm p.unboundSignatures :=
    (ends_anyOrder fun _ h => h).bind fun _ h => ends_pure (h.filterMap _)
  refine hunbound.bind fun rs hrs => ends_pure ?_
  simp only [Piece.diagnostics, List.map_append]
  have hsource : ∀ d ∈ rs.map (fun (pos, c) => (⟨p.source, pos, c⟩ : Diagnostic)),
      d.source = p.source := by
    intro d hd
    obtain ⟨r, _, rfl⟩ := List.mem_map.mp hd
    rfl
  refine (Interchanged.refl _ _).append (interchanged_of_apart hsource ?_ (hrs.map _))
  rw [List.map_map]
  exact (hrs.map _).nodup_iff.mpr hp

theorem ends_mapM_diagnostics (sources : List String) (ps : List Piece) :
    (∀ p ∈ ps, Apart p) → Ends (ps.mapM diagnostics) fun said =>
      Interchanged sources said.flatten (ps.flatMap (·.diagnostics)) := by
  induction ps with
  | nil => intro _; exact ends_pure (.refl _ _)
  | cons p ps ih =>
    intro hps
    rw [List.forall_mem_cons] at hps
    rw [List.mapM_cons]
    refine (ends_diagnostics hps.1 sources).bind fun ds hds => ?_
    refine (ih hps.2).bind fun said hsaid => ends_pure ?_
    rw [List.flatten_cons, List.flatMap_cons]
    exact hds.append hsaid

theorem conclude_congr (name : String) {ps : List Piece} (imported : Table Program.Import)
    {said said' : List Diagnostic} (h : Interchanged (ps.map (·.source)) said said')
    (defs : List Definition) :
    conclude name ps imported said defs = conclude name ps imported said' defs := by
  unfold conclude
  simp only
  have hall := fun es fs => (h.append (.refl _ es)).append (.refl _ fs)
  generalize List.flatMap _ (Program.imports ps) = es
  generalize List.flatMap _ defs = fs
  have hempty : (said ++ es ++ fs).isEmpty = (said' ++ es ++ fs).isEmpty := by
    rw [Bool.eq_iff_iff, List.isEmpty_iff_length_eq_zero, List.isEmpty_iff_length_eq_zero,
      (hall es fs).perm.length_eq]
  rw [hempty, (hall es fs).sort]

/-- If no two signatures without a binding stand in one place, the order in which tables are gone
through is not seen in the outcome. -/
theorem check_eq {ps : List Piece} (hps : ∀ p ∈ ps, Apart p) (name : String)
    (imported : Table Program.Import) :
    check name ps imported = pure (Program.check name ps imported) := by
  refine Ends.eq_pure ?_
  refine (ends_mapM_diagnostics (ps.map (·.source)) ps hps).bind fun said hsaid => ?_
  refine (ends_definitions ps).bind fun s hs => ends_pure ?_
  rw [hs, conclude_congr name imported hsaid, conclude_definitions]

end Unordered

end LazySession

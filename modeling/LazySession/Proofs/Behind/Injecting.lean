import LazySession.Proofs.Behind.Extended
import LazySession.Proofs.Twin.Session

/-!
# Writing bound values again

Where bound values go is up to the prelude and its evaluated thunks: `Session.aims`. So they go to the
same cells again, and if the cells still have the values, nothing changes: `Session.Stocked.again`.
-/

namespace LazySession

open Act

theorem Act.meets_run {α : Type} (x : Act α) (w : World) :
    x.Meets w (fun a v => x.run w = (.ok a, v)) (fun e v => x.run w = (.error e, v)) := by
  unfold Act.Meets
  split <;> rename_i h <;> exact h

theorem Loader.Holds.keeps {l : Loader} {w w' : World} {name : String} {i : InstanceId}
    (h : l.Holds w name i) (hk : w.Keeps [] w') : l.Holds w' name i := by
  obtain ⟨id, e, hid, he, hi⟩ := h
  obtain ⟨linked, he', hlinked⟩ := hk.entries id e he
  exact ⟨id, _, hid, he', hlinked i hi⟩

namespace Heap

/-- Values have been written into cells, one after the other. -/
def setCells (ts : List (CellId × Value)) (h : Heap) : Heap :=
  ts.foldl (fun h t => h.setCell t.1 t.2) h

theorem setCells_cons (t : CellId × Value) (ts : List (CellId × Value)) (h : Heap) :
    setCells (t :: ts) h = setCells ts (h.setCell t.1 t.2) := rfl

theorem setCells_eq (ts : List (CellId × Value)) :
    ∀ h : Heap, setCells ts h = { h with cells := (setCells ts h).cells } := by
  induction ts with
  | nil => exact fun _ => rfl
  | cons t ts ih =>
    intro h
    rw [setCells_cons, ih]
    rfl

@[simp] theorem size_setCells (ts : List (CellId × Value)) :
    ∀ h : Heap, (setCells ts h).cells.size = h.cells.size := by
  induction ts with
  | nil => exact fun _ => rfl
  | cons t ts ih =>
    intro h
    rw [setCells_cons, ih]
    exact Array.size_setIfInBounds

theorem cell_setCells (c : CellId) (ts : List (CellId × Value)) :
    (∀ h, (setCells ts h).cells[c]? = h.cells[c]?) ∨
      (∃ t ∈ ts, t.1 = c) ∧ ∃ x, ∀ h, c < h.cells.size → (setCells ts h).cells[c]? = some (some x) := by
  induction ts with
  | nil => exact .inl fun _ => rfl
  | cons t ts ih =>
    rcases ih with hkeep | ⟨⟨t', ht', hc⟩, x, hx⟩
    · by_cases ht : t.1 = c
      · subst ht
        refine .inr ⟨⟨t, List.mem_cons_self, rfl⟩, t.2, fun h hlt => ?_⟩
        rw [setCells_cons, hkeep]
        exact Array.getElem?_setIfInBounds_self_of_lt hlt
      · refine .inl fun h => ?_
        rw [setCells_cons, hkeep]
        exact Array.getElem?_setIfInBounds_ne ht
    · refine .inr ⟨⟨t', List.mem_cons_of_mem _ ht', hc⟩, x, fun h hlt => ?_⟩
      exact hx _ (hlt.trans_eq Array.size_setIfInBounds.symm)

theorem setCells_again {ts : List (CellId × Value)} {h h' : Heap} (hin : ∀ t ∈ ts, t.1 < h.cells.size)
    (hkeep : ∀ (c : CellId) x, (setCells ts h).cells[c]? = some x → h'.cells[c]? = some x) :
    setCells ts h' = h' := by
  rw [setCells_eq]
  suffices hcells : (setCells ts h').cells = h'.cells by rw [hcells]
  apply Array.ext_getElem?
  intro c
  rcases cell_setCells c ts with hsame | ⟨⟨t, ht, rfl⟩, x, hx⟩
  · exact hsame h'
  · have hthere := hkeep t.1 _ (hx h (hin t ht))
    rw [hthere, hx h' (Array.getElem?_eq_some_iff.mp hthere).1]

end Heap

namespace Session

variable {ip : Interpreter} {g : Generator} {s : Session} {l l' : Loader} {w w' : World}

/-- The cells that bound values are to be written into, with the values, or why this fails. -/
def aims (g : Generator) (i : Instance) (h : Heap) : Table Bound → Except Error (List (CellId × Value))
  | [] => .ok []
  | (name, b) :: bs => match i.fields.get? (g.cellName name) with
    | none => .error (.during (.injecting name) (.noField i.name (g.cellName name)))
    | some v => match Instance.cell? h v with
      | none => .error (.during (.injecting name) (.notCell i.name (g.cellName name)))
      | some c => (aims g i h bs).map ((c, b.value.toValue) :: ·)

theorem aims_cons_ok {i : Instance} {h : Heap} {name : String} {b : Bound} {bs : Table Bound}
    {ts : List (CellId × Value)} (ha : aims g i h ((name, b) :: bs) = .ok ts) : ∃ v c us,
      i.fields.get? (g.cellName name) = some v ∧ Instance.cell? h v = some c ∧
        aims g i h bs = .ok us ∧ ts = (c, b.value.toValue) :: us := by
  unfold aims at ha
  split at ha
  · cases ha
  · rename_i v hv
    split at ha
    · cases ha
    · rename_i c hc
      cases hrest : aims g i h bs with
      | error e =>
        rw [hrest] at ha
        cases ha
      | ok us =>
        rw [hrest] at ha
        exact ⟨v, c, us, hv, hc, rfl, (Except.ok.inj ha).symm⟩

theorem aims_congr (i : Instance) {h h' : Heap} (ht : h'.thunks = h.thunks) (bs : Table Bound) :
    aims g i h' bs = aims g i h bs := by
  have hcell : Instance.cell? h' = Instance.cell? h := by
    funext v
    simp only [Instance.cell?, Heap.thunkValue?, ht]
  induction bs with
  | nil => rfl
  | cons x bs ih => simp only [aims, hcell, ih]

theorem aims_ripens {i : Instance} {S : Set ScopeId} {h h' : Heap} (hr : h.Ripens S h') {bs : Table Bound} :
    ∀ {ts : List (CellId × Value)}, aims g i h bs = .ok ts → aims g i h' bs = .ok ts := by
  induction bs with
  | nil => exact id
  | cons x bs ih =>
    intro ts ha
    obtain ⟨v, c, us, hv, hc, hus, rfl⟩ := aims_cons_ok ha
    obtain ⟨id, rfl, hid⟩ := Instance.cell?_eq_some.mp hc
    have hc' := Instance.cell?_eq_some.mpr ⟨id, rfl, hr.done hid⟩
    simp only [aims, hv, hc', ih hus]
    rfl

theorem aims_lt {i : Instance} {o : Outside} {p : Pairing} {h h' : Heap} (ht : h.Twin o p h')
    (hi : i.fields.Twin (Value.Held p) i.fields) {bs : Table Bound} :
    ∀ {ts : List (CellId × Value)}, aims g i h bs = .ok ts → ∀ t ∈ ts, t.1 < h.cells.size := by
  induction bs with
  | nil =>
    rintro ts ⟨⟩
    exact List.forall_mem_nil _
  | cons x bs ih =>
    intro ts ha
    obtain ⟨v, c, us, hv, hc, hus, rfl⟩ := aims_cons_ok ha
    refine List.forall_mem_cons.mpr ⟨?_, ih hus⟩
    have hheld := hi.get? (g.cellName x.1)
    rw [hv] at hheld
    cases hheld with | some hheld =>
    have hrel := Instance.twin_cell? ht hheld
    rw [hc] at hrel
    rcases rel_cases hrel with ⟨hn, -⟩ | ⟨a, b, ha, -, hab⟩
    · cases hn
    · cases ha
      exact (ht.cells.lt hab).1

theorem meets_injectAll (ip : Interpreter) (g : Generator) (i : Instance) (bs : Table Bound) : ∀ w : World,
    (injectAll ⟨ip.engine, g⟩ i bs).Meets w
      (fun _ v => ∃ ts, aims g i w.heap bs = .ok ts ∧ v = { w with heap := w.heap.setCells ts })
      (fun e v => aims g i w.heap bs = .error e ∧
        ∃ cells, v = { w with heap := { w.heap with cells } }) := by
  induction bs with
  | nil => exact fun w => meets_pure ⟨[], rfl, rfl⟩
  | cons x bs ih =>
    intro w
    obtain ⟨name, b⟩ := x
    unfold injectAll
    refine meets_bind (meets_during ?_)
    unfold Instance.write
    split
    · rename_i hnone
      exact meets_throw ⟨by simp only [aims, hnone], w.heap.cells, rfl⟩
    · rename_i v hv
      refine meets_get_bind ?_
      split
      · rename_i c hc
        have hthunks : (w.heap.setCell c b.value.toValue).thunks = w.heap.thunks := rfl
        have hsame := aims_congr (g := g) i hthunks bs
        refine meets_set ((ih _).mono ?_ ?_)
        · rintro _ u ⟨ts, hts, rfl⟩
          refine ⟨(c, b.value.toValue) :: ts, ?_, rfl⟩
          simp only [aims, hv, hc, hsame.symm.trans hts]
          rfl
        · rintro e u ⟨he, cells, rfl⟩
          refine ⟨?_, cells, rfl⟩
          simp only [aims, hv, hc, hsame.symm.trans he]
          rfl
      · rename_i hc
        exact meets_throw ⟨by simp only [aims, hv, hc], w.heap.cells, rfl⟩

/-! ## Before a value is read -/

/-- What is done before the value of an expression is read: bound values are written. -/
def prepare (ws : Workshop) (s : Session) (l : Loader) : Act Unit :=
  if s.bindings.isEmpty then return () else inject ws s l

/-- The value of a field of an artifact. -/
def fetch (ws : Workshop) (l : Loader) (artifact field : String) : Act HostValue := do
  let i ← loadInstance ws l artifact
  i.read ws.engine.setting field

theorem run_readField (ws : Workshop) (s : Session) (l : Loader) (artifact field : String) (w : World) :
    (readField ws s l artifact field).run w =
      (prepare ws s l >>= fun _ => fetch ws l artifact field).run w := by
  unfold readField prepare fetch
  cases s.bindings.isEmpty with
  | true => simp only [Bool.not_true, Bool.false_eq_true, if_false, if_true, pure_bind]
  | false => simp only [Bool.not_false, Bool.false_eq_true, if_false, if_true]

theorem run_loadInstance_congr {ws : Workshop} {name : String}
    (h : (l'.load ws.engine.setting name).run w = (l.load ws.engine.setting name).run w) :
    (loadInstance ws l' name).run w = (loadInstance ws l name).run w := by
  unfold loadInstance
  rw [run_bind, run_bind, h]

/-- Further modules make no difference. -/
theorem prepare_extended (ws : Workshop)
    (hmore : ∀ {n id}, l.modules.get? n = some id → l'.modules.get? n = some id) (hk : l.Keyed w)
    (hc : ModuleCode.Complete (l.code? w))
    (hprelude : s.bindings = [] ∨ ws.generator.preludeArtifact ∈ l.modules.names) :
    (prepare ws s l').run w = (prepare ws s l).run w := by
  unfold prepare
  by_cases hnone : s.bindings.isEmpty = true
  · rw [if_pos hnone, if_pos hnone]
  · have hin := hprelude.resolve_left fun hb => hnone (List.isEmpty_iff.mpr hb)
    have hload := run_loadInstance_congr (Loader.load_extended ws.engine.setting hmore hk hc hin)
    rw [if_neg hnone, if_neg hnone]
    unfold inject
    rw [run_bind, run_bind, run_during, run_during, hload]

theorem together_prepare (hlib : ip.setting.host.Natural) {o : Apart} {p : WorldPairing} {s' : Session}
    (hs : s.Twin p s') (hl : l.Twin p l') (hw : w.Twin o p w') :
    Together o p (fun _ _ _ => True) (prepare ⟨ip.engine, g⟩ s l) w (prepare ⟨ip.engine, g⟩ s' l') w' := by
  unfold prepare
  rw [hs.isEmpty]
  split
  · exact together_pure hw trivial
  · exact together_inject hlib hs hl hw

section
variable {ws : Workshop} {R : World → World → Prop}

theorem Serves.prepare (h : Serves ws l R) (s : Session) : Loader.Holding R (prepare ws s l) := by
  unfold Session.prepare
  split
  · exact fun w => meets_pure (h.refl w)
  · exact ((h.loadInstance _).during _).bind h.trans fun i => h.injectAll i s.bindings

theorem Serves.fetch (h : Serves ws l R) (artifact field : String) :
    Loader.Holding R (fetch ws l artifact field) :=
  (h.loadInstance artifact).bind h.trans fun i => h.read i field

end

/-! ## Again -/

theorem run_loadInstance_held {ws : Workshop} {name : String} {i : InstanceId} {inst : Instance}
    (hcalm : w.context = {}) (hholds : l.Holds w name i) (hinst : w.instances[i]? = some inst) :
    (loadInstance ws l name).run w = (.ok inst, w) := by
  obtain ⟨id, e, hid, he, hlinked⟩ := hholds
  have hload : (l.load ws.engine.setting name).run w = (.ok i, w) := by
    unfold Loader.load
    rw [run_bind, run_inquire_calm hcalm]
    have hlink := Loader.link_eq ws.engine.setting l.modules.length hid he (List.not_mem_nil (a := name))
    rw [hlinked] at hlink
    exact hlink
  unfold loadInstance
  rw [run_bind, hload]
  simp only [run_bind, run_get, hinst]
  rfl

theorem meets_loadInstance {ws : Workshop} {ls : List Loader} (hc : Loader.Coherent ls [] w) (hl : l ∈ ls)
    (hcalm : w.context = {}) (name : String) :
    (loadInstance ws l name).Meets w
      (fun inst v => ∃ i, l.Holds v name i ∧ v.instances[i]? = some inst) (fun _ _ => True) := by
  have hload : (l.load ws.engine.setting name).Meets w (fun i v => l.Holds v name i) (fun _ _ => True) := by
    unfold Loader.load
    refine meets_bind (meets_of_run (run_inquire_calm hcalm) ?_)
    refine (Loader.meets_link ws.engine.setting hl _ [] name [] w hc (List.forall_mem_nil _)).mono ?_ ?_
    · exact fun _ _ h => h.2
    · exact fun _ _ _ => trivial
  refine meets_bind (hload.mono ?_ fun _ _ h => h)
  intro i v hholds
  refine meets_get_bind ?_
  split
  · rename_i inst hinst
    exact meets_pure ⟨i, hholds, hinst⟩
  · exact meets_throw trivial

/-- The prelude is linked, and the bound values are in its cells. -/
def Stocked (g : Generator) (s : Session) (l : Loader) (w : World) : Prop :=
  ∃ i inst ts h, l.Holds w g.preludeArtifact i ∧ w.instances[i]? = some inst ∧
    aims g inst w.heap s.bindings = .ok ts ∧ w.heap = Heap.setCells ts h

/-- The prelude is linked, and it is not possible to write all bound values into it. -/
def Barred (g : Generator) (s : Session) (l : Loader) (e : Error) (w : World) : Prop :=
  ∃ i inst, l.Holds w g.preludeArtifact i ∧ w.instances[i]? = some inst ∧
    aims g inst w.heap s.bindings = .error e

theorem meets_prepare (ip : Interpreter) (g : Generator) (s : Session) {ls : List Loader}
    (hc : Loader.Coherent ls [] w) (hl : l ∈ ls) (hcalm : w.context = {}) :
    (prepare ⟨ip.engine, g⟩ s l).Meets w (fun _ v => s.bindings = [] ∨ s.Stocked g l v)
      (fun e v => s.bindings ≠ [] ∧
        (((loadInstance ⟨ip.engine, g⟩ l g.preludeArtifact).during .loadingPrelude).run w = (.error e, v) ∨
          s.Barred g l e v)) := by
  unfold prepare
  split
  · rename_i hempty
    exact meets_pure (.inl (List.isEmpty_iff.mp hempty))
  · rename_i hempty
    have hsome : s.bindings ≠ [] := fun hb => hempty (List.isEmpty_iff.mpr hb)
    have hload : ((loadInstance ⟨ip.engine, g⟩ l g.preludeArtifact).during .loadingPrelude).Meets w
        (fun inst v => ∃ i, l.Holds v g.preludeArtifact i ∧ v.instances[i]? = some inst) (fun _ _ => True) :=
      meets_during (meets_loadInstance hc hl hcalm g.preludeArtifact)
    refine meets_bind ((hload.and (meets_run _ w)).mono ?_ fun e v h => ⟨hsome, .inl h.2⟩)
    rintro inst v ⟨⟨i, hholds, hinst⟩, -⟩
    refine (meets_injectAll ip g inst s.bindings v).mono ?_ ?_
    · rintro _ _ ⟨ts, hts, rfl⟩
      have hthunks : (Heap.setCells ts v.heap).thunks = v.heap.thunks := by rw [Heap.setCells_eq]
      exact .inr ⟨i, inst, ts, v.heap, hholds, hinst, (aims_congr inst hthunks s.bindings).trans hts, rfl⟩
    · rintro e _ ⟨he, cells, rfl⟩
      have hthunks : ({ v.heap with cells } : Heap).thunks = v.heap.thunks := rfl
      exact ⟨hsome, .inr ⟨i, inst, hholds, hinst, (aims_congr inst hthunks s.bindings).trans he⟩⟩

theorem run_inject_held (hcalm : w.context = {}) {i : InstanceId} {inst : Instance}
    (hholds : l.Holds w g.preludeArtifact i) (hinst : w.instances[i]? = some inst) :
    (inject ⟨ip.engine, g⟩ s l).run w = (injectAll ⟨ip.engine, g⟩ inst s.bindings).run w := by
  unfold inject
  rw [run_bind, run_during, run_loadInstance_held hcalm hholds hinst]
  rfl

/-- What has been written is not changed by writing it again. -/
theorem Stocked.again (h : s.Stocked g l w) {S : Set ScopeId} {o : Outside} {p : Pairing} {k : Heap}
    (ht : w.heap.Twin o p k) (hr : w.heap.Ripens S w'.heap) (hk : w.Keeps [] w') (hcalm : w'.context = {})
    (hfields : ∀ n i, l.instance? w n = some i → i.fields.Twin (Value.Held p) i.fields) :
    (inject ⟨ip.engine, g⟩ s l).run w' = (.ok (), w') := by
  obtain ⟨i, inst, ts, h, hholds, hinst, hts, hheap⟩ := h
  have hheld : l.instance? w g.preludeArtifact = some inst := by
    obtain ⟨id, e, hid, he, hlinked⟩ := hholds
    exact Loader.instance?_eq_some.mpr ⟨id, e, i, hid, he, hlinked, hinst⟩
  have hagain : Heap.setCells ts w'.heap = w'.heap := by
    have hin := aims_lt ht (hfields _ inst hheld) hts
    rw [hheap, Heap.size_setCells] at hin
    exact Heap.setCells_again hin fun c x hx => hr.idle.cells c x (hheap ▸ hx)
  rw [run_inject_held hcalm (hholds.keeps hk) (hk.instances i inst hinst)]
  have hall := meets_injectAll ip g inst s.bindings w'
  rw [aims_ripens hr hts] at hall
  unfold Act.Meets at hall
  generalize (injectAll ⟨ip.engine, g⟩ inst s.bindings).run w' = x at hall ⊢
  obtain ⟨r, v⟩ := x
  cases r with
  | error e => cases hall.1
  | ok u =>
    obtain ⟨ts', hts', rfl⟩ := hall
    obtain rfl := Except.ok.inj hts'
    rw [hagain]

theorem Barred.again {e : Error} (h : s.Barred g l e w) (ht : w'.heap.thunks = w.heap.thunks)
    (hk : w.Keeps [] w') (hcalm : w'.context = {}) :
    ((inject ⟨ip.engine, g⟩ s l).run w').1 = .error e := by
  obtain ⟨i, inst, hholds, hinst, he⟩ := h
  rw [run_inject_held hcalm (hholds.keeps hk) (hk.instances i inst hinst)]
  have hall := meets_injectAll ip g inst s.bindings w'
  rw [aims_congr inst ht, he] at hall
  unfold Act.Meets at hall
  generalize (injectAll ⟨ip.engine, g⟩ inst s.bindings).run w' = x at hall ⊢
  obtain ⟨r, v⟩ := x
  cases r with
  | ok u =>
    obtain ⟨ts, hts, -⟩ := hall
    cases hts
  | error e' => exact congrArg Except.error (Except.error.inj hall.1).symm

end Session

end LazySession

import LazySession.Proofs.Session.Judged
import LazySession.Proofs.Twin.World

/-!
# Sessions in step

`Session.Twin p s s'`: two sessions with the same definitions, prelude and names, whose modules and
bound values are twins. `Call.together_act`: a call comes to the same in both, and leaves twins.
-/

namespace LazySession

open Act

/-! ## Sessions -/

structure Bound.Twin (p : WorldPairing) (b b' : Bound) : Prop where
  type : b'.type = b.type
  value : b.value.Twin p.heap b'.value

structure Session.Twin (p : WorldPairing) (s s' : Session) : Prop where
  history : s'.history = s.history
  loader : s.loader.Twin p s'.loader
  bindings : s.bindings.Twin (Bound.Twin p) s'.bindings
  prelude : s'.prelude = s.prelude
  reloads : s'.reloads = s.reloads

inductive RunResult.Twin (p : WorldPairing) : RunResult → RunResult → Prop
  | rejected (ds : List Diagnostic) : Twin p (.rejected ds) (.rejected ds)
  | accepted (kind : SourceKind) {l l' : Loader} (hl : l.Twin p l') :
    Twin p (.accepted kind l) (.accepted kind l')

theorem Bound.Twin.mono {p q : WorldPairing} {b b' : Bound} (h : b.Twin p b') (hw : p.Within q) :
    b.Twin q b' :=
  ⟨h.type, h.value.mono hw.heap⟩

theorem Session.Twin.mono {p q : WorldPairing} {s s' : Session} (h : s.Twin p s')
    (hw : p.Within q) : s.Twin q s' where
  history := h.history
  loader := h.loader.mono hw
  bindings := h.bindings.imp fun _ _ hb => hb.mono hw
  prelude := h.prelude
  reloads := h.reloads

theorem Session.Twin.isEmpty {p : WorldPairing} {s s' : Session} (h : s.Twin p s') :
    s'.bindings.isEmpty = s.bindings.isEmpty := by
  have hb := h.bindings
  generalize s.bindings = bs at hb ⊢
  generalize s'.bindings = bs' at hb ⊢
  cases hb <;> rfl

/-! ## Running texts -/

namespace Interpreter

variable {o : Apart} {p : WorldPairing} {w w' : World}

theorem together_interpret (hw : w.Twin o p w') (text : String) :
    Together o p (fun _ x y => x = programOf text ∧ y = programOf text) (interpret text) w
      (interpret text) w' := by
  obtain ⟨cache, hc, hrun⟩ := truthful_interpret hw.truthful.1 text
  obtain ⟨cache', hc', hrun'⟩ := truthful_interpret hw.truthful.2 text
  unfold Together
  rw [hrun, hrun']
  exact ⟨p, .refl p, .ok ⟨rfl, rfl⟩, hw.withCache hc hc'⟩

/-- What becomes of a text is up to the code of the modules, not to the cache or to addresses. -/
theorem together_run (ip : Interpreter) (hw : w.Twin o p w') (text : String) (history : History)
    {l l' : Loader} (hl : l.Twin p l') :
    Together o p RunResult.Twin (ip.engine.run (programOf text) history l) w
      (ip.engine.run (programOf text) history l') w' := by
  change Together o p RunResult.Twin (ip.run (.ours (programOf text)) history (some (.ours l))) w
    (ip.run (.ours (programOf text)) history (some (.ours l'))) w'
  obtain ⟨cache, hc, hrun⟩ := run_eq ip text history l hw.truthful.1
  obtain ⟨cache', hc', hrun'⟩ := run_eq ip text history l' hw.truthful.2
  have hread : (w.read cache).Twin o p (w'.read cache') := by
    unfold World.read
    rw [hw.context]
    exact (hw.withCache hc hc').withContext _
  unfold Together
  rw [hrun, hrun', hw.context, hl.code? hw]
  split
  · exact ⟨p, .refl p, .error _, hread⟩
  · split
    · exact ⟨p, .refl p, .ok (.rejected _), hread⟩
    · rename_i kind mods _
      obtain ⟨q, hq, hl', hw'⟩ := Loader.twinPair_extend hl mods hread
      exact ⟨q, hq, .ok (.accepted kind hl'), hw'⟩

end Interpreter

namespace Session

variable {o : Apart} {p : WorldPairing} {w w' : World} {ip : Interpreter} {g : Generator}
variable {s s' : Session}

theorem together_lock (hw : w.Twin o p w') :
    Together o p (fun _ _ _ => True) lock w lock w' := by
  unfold lock
  refine together_get_bind ?_
  rw [hw.context]
  split
  · exact together_throw hw _
  · exact together_pure hw trivial

/-! ## Expressions -/

section
variable (hlib : ip.setting.host.Natural)
include hlib

theorem together_loadInstance {l l' : Loader} (hl : l.Twin p l') (hw : w.Twin o p w')
    (name : String) : Together o p Instance.Twin (loadInstance ⟨ip.engine, g⟩ l name) w
      (loadInstance ⟨ip.engine, g⟩ l' name) w' := by
  unfold loadInstance
  refine together_bind (Loader.together_load hlib hl hw name) ?_
  intro q i i' w₁ w₁' _ hi hw₁
  refine together_get_bind ?_
  obtain ⟨x, y, hx, hy, hxy⟩ := hw₁.instances.related hi
  simp only [hx, hy]
  exact together_pure hw₁ hxy

omit hlib in
theorem together_injectAll {bs bs' : Table Bound} {p : WorldPairing}
    (hb : bs.Twin (Bound.Twin p) bs') : ∀ {q : WorldPairing} {w w' : World} {i i' : Instance},
      p.Within q → i.Twin q i' → w.Twin o q w' →
      Together o q (fun _ _ _ => True) (injectAll ⟨ip.engine, g⟩ i bs) w
        (injectAll ⟨ip.engine, g⟩ i' bs') w' := by
  induction hb with
  | nil => exact fun _ _ hw => together_pure hw trivial
  | @cons x x' _ _ hx _ ih =>
    intro q w w' i i' hq hi hw
    obtain ⟨name, b⟩ := x
    obtain ⟨name', b'⟩ := x'
    obtain ⟨rfl, hb⟩ := hx
    unfold injectAll
    refine together_bind (together_during _ (Instance.together_write hi hw _ (hb.mono hq).value)) ?_
    intro r _ _ w₁ w₁' hr _ hw₁
    exact ih (hq.trans hr) (hi.mono hr) hw₁

theorem together_inject (hs : s.Twin p s') {l l' : Loader} (hl : l.Twin p l') (hw : w.Twin o p w') :
    Together o p (fun _ _ _ => True) (inject ⟨ip.engine, g⟩ s l) w
      (inject ⟨ip.engine, g⟩ s' l') w' := by
  unfold inject
  refine together_bind (together_during _ (together_loadInstance hlib hl hw _)) ?_
  intro q i i' w₁ w₁' hq hi hw₁
  exact together_injectAll hs.bindings hq hi hw₁

theorem together_readField (hs : s.Twin p s') {l l' : Loader} (hl : l.Twin p l')
    (hw : w.Twin o p w') (artifact field : String) :
    Together o p (fun q => HostValue.Twin q.heap) (readField ⟨ip.engine, g⟩ s l artifact field) w
      (readField ⟨ip.engine, g⟩ s' l' artifact field) w' := by
  have hread : ∀ {q : WorldPairing} {w₁ w₁' : World}, p.Within q → w₁.Twin o q w₁' →
      Together o q (fun r => HostValue.Twin r.heap)
        (do let i ← loadInstance ⟨ip.engine, g⟩ l artifact; i.read ip.engine.setting field) w₁
        (do let i ← loadInstance ⟨ip.engine, g⟩ l' artifact; i.read ip.engine.setting field) w₁' := by
    intro q w₁ w₁' hq hw₁
    refine together_bind (together_loadInstance hlib (hl.mono hq) hw₁ artifact) ?_
    intro r i i' w₂ w₂' _ hi hw₂
    exact Instance.together_read hlib hi hw₂ field
  have hempty := hs.isEmpty
  unfold readField
  rw [hempty]
  split
  · refine together_bind (together_inject hlib hs hl hw) ?_
    intro q _ _ w₁ w₁' hq _ hw₁
    exact hread hq hw₁
  · exact hread (.refl p) hw

theorem together_readSymbol (hs : s.Twin p s') (sym : Symbol) {l l' : Loader} (hl : l.Twin p l')
    (hw : w.Twin o p w') :
    Together o p (fun q => HostValue.Twin q.heap) (readSymbol ⟨ip.engine, g⟩ s sym l) w
      (readSymbol ⟨ip.engine, g⟩ s' sym l') w' := by
  have hname : ip.engine.artifactName sym l' = ip.engine.artifactName sym l := by
    have hhas : l'.modules.has sym.artifact = l.modules.has sym.artifact := by
      unfold Table.has
      rcases rel_cases (Table.Twin.get? hl sym.artifact) with ⟨hn, hn'⟩ | ⟨a, b, hn, hn', -⟩
      · rw [hn, hn']
      · rw [hn, hn']
        rfl
    simp only [Interpreter.engine, Interpreter.artifactName, hhas]
  simp only [readSymbol, hname]
  cases ip.engine.artifactName sym l with
  | error e => exact together_throw hw _
  | ok artifact => exact together_rethrow _ (together_readField hlib hs hl hw artifact sym.field)

/-! ## Fragments -/

/-- Twins as values, and twins as sessions afterwards. -/
def Replies (q : WorldPairing) (x y : HostValue × Session) : Prop :=
  x.1.Twin q.heap y.1 ∧ x.2.Twin q y.2

theorem together_accept (hs : s.Twin p s') (text : String) {r r' : RunResult} (hr : r.Twin p r')
    (hw : w.Twin o p w') :
    Together o p Replies (accept ⟨ip.engine, g⟩ s text r) w (accept ⟨ip.engine, g⟩ s' text r') w' := by
  cases hr with
  | rejected ds => exact together_throw hw _
  | accepted kind hl =>
    cases kind with
    | module name => exact together_pure hw ⟨.nil, hs.history, hl, hs.bindings, hs.prelude, hs.reloads⟩
    | definitions =>
      refine together_pure hw ⟨.nil, ?_, hs.loader, hs.bindings, hs.prelude, hs.reloads⟩
      rw [hs.history]
    | expression sym =>
      refine together_bind (together_readSymbol hlib hs sym hl hw) ?_
      intro q v v' w₁ w₁' hq hv hw₁
      exact together_pure hw₁ ⟨hv, hs.mono hq⟩

theorem together_evaluateProgram (hs : s.Twin p s') (text : String) (hw : w.Twin o p w') :
    Together o p Replies (evaluateProgram ⟨ip.engine, g⟩ s (Interpreter.programOf text)) w
      (evaluateProgram ⟨ip.engine, g⟩ s' (Interpreter.programOf text)) w' := by
  unfold evaluateProgram
  refine together_bind (together_lock hw) ?_
  intro q _ _ w₁ w₁' hq _ hw₁
  rw [hs.history]
  refine together_bind (together_during _ (ip.together_run hw₁ text s.history (hs.loader.mono hq))) ?_
  intro q' r r' w₂ w₂' hq' hr hw₂
  exact together_accept hlib (hs.mono (hq.trans hq')) _ hr hw₂

theorem together_evaluate (hs : s.Twin p s') (text : String) (hw : w.Twin o p w') :
    Together o p Replies (evaluate ⟨ip.engine, g⟩ s text) w (evaluate ⟨ip.engine, g⟩ s' text) w' := by
  unfold evaluate
  refine together_bind (Interpreter.together_interpret hw text) ?_
  rintro q _ _ w₁ w₁' hq ⟨rfl, rfl⟩ hw₁
  exact together_evaluateProgram hlib (hs.mono hq) text hw₁

end

theorem together_compile (ip : Interpreter) (g : Generator) (hs : s.Twin p s') (text : String)
    (hw : w.Twin o p w') :
    Together o p (fun _ _ _ => True) (compile ⟨ip.engine, g⟩ s text) w
      (compile ⟨ip.engine, g⟩ s' text) w' := by
  unfold compile
  refine together_bind (Interpreter.together_interpret hw text) ?_
  rintro q _ _ w₁ w₁' hq ⟨rfl, rfl⟩ hw₁
  rw [hs.history]
  refine together_bind (together_during _ (ip.together_run hw₁ text s.history (hs.loader.mono hq))) ?_
  intro q' r r' w₂ w₂' hq' hr hw₂
  cases hr with
  | rejected ds => exact together_throw hw₂ _
  | accepted kind hl => exact together_pure hw₂ trivial

/-! ## Bindings -/

theorem twin_bindState (g : Generator) (hs : s.Twin p s') (k : BindKey) {v v' : HostValue}
    (hv : v.Twin p.heap v') : Agrees (Session.Twin p) (bindState g s k v) (bindState g s' k v') := by
  have hempty := hs.isEmpty
  unfold bindState
  rcases rel_cases (hs.bindings.get? k.name) with ⟨hn, hn'⟩ | ⟨b, b', hn, hn', hb⟩
  · simp only [hn, hn', bindNew, hempty, hs.history, hs.prelude]
    cases g.declare k.name k.type with
    | error e => exact .error e
    | ok d => exact .ok ⟨rfl, hs.loader, hs.bindings.put k.name ⟨rfl, hv⟩, rfl, hs.reloads⟩
  · simp only [hn, hn', hb.type]
    split
    · exact .error _
    · exact .ok ⟨hs.history, hs.loader, hs.bindings.put k.name ⟨rfl, hv⟩, hs.prelude, hs.reloads⟩

theorem together_reload (ip : Interpreter) (g : Generator) (hs : s.Twin p s') (hw : w.Twin o p w') :
    Together o p Session.Twin (reload ⟨ip.engine, g⟩ s) w (reload ⟨ip.engine, g⟩ s') w' := by
  unfold reload
  rw [hs.prelude]
  refine together_bind (Interpreter.together_interpret hw _) ?_
  rintro q _ _ w₁ w₁' hq ⟨rfl, rfl⟩ hw₁
  rw [hs.history]
  refine together_bind (together_during _ (ip.together_run hw₁ _ s.history (hs.loader.mono hq))) ?_
  intro q' r r' w₂ w₂' hq' hr hw₂
  have hs₂ := hs.mono (hq.trans hq')
  cases hr with
  | rejected ds => exact together_throw hw₂ _
  | accepted kind hl =>
    cases kind with
    | module name =>
      refine together_pure hw₂ ⟨rfl, hl, hs₂.bindings, rfl, ?_⟩
      rw [hs₂.reloads]
    | definitions => exact together_throw hw₂ _
    | expression sym => exact together_throw hw₂ _

theorem together_bind_value (ip : Interpreter) (g : Generator) (hs : s.Twin p s') (key : String)
    {v v' : HostValue} (hv : v.Twin p.heap v') (hw : w.Twin o p w') :
    Together o p Session.Twin (Session.bind ⟨ip.engine, g⟩ s key v) w
      (Session.bind ⟨ip.engine, g⟩ s' key v') w' := by
  unfold Session.bind
  refine together_bind (together_lock hw) ?_
  intro q _ _ w₁ w₁' hq _ hw₁
  cases BindKey.ofText key with
  | error e => exact together_throw hw₁ _
  | ok k =>
    rcases (twin_bindState g (hs.mono hq) k (hv.mono hq.heap)).cases with
      ⟨e, he, he'⟩ | ⟨next, next', he, he', hnext⟩
    · simp only [he, he']
      exact together_throw hw₁ _
    · simp only [he, he']
      exact together_rethrow _ (together_reload ip g hnext hw₁)

end Session

/-! ## Calls -/

/-- The same calls, but for twins that are to be bound. -/
inductive Call.Twin (p : WorldPairing) : Call → Call → Prop
  | bind (key : String) {v v' : HostValue} (hv : v.Twin p.heap v') :
    Twin p (.ask (.bind key v)) (.ask (.bind key v'))
  | evaluate (text : String) : Twin p (.ask (.evaluate text)) (.ask (.evaluate text))
  | program (text : String) : Twin p (.ask (.program text)) (.ask (.program text))
  | compile (text : String) : Twin p (.ask (.compile text)) (.ask (.compile text))
  | read (source : Except String String) : Twin p (.read source) (.read source)

theorem Call.together_act {o : Apart} {p : WorldPairing} {w w' : World} {ip : Interpreter}
    (hlib : ip.setting.host.Natural) (g : Generator) {s s' : Session} (hs : s.Twin p s')
    {c c' : Call} (hc : c.Twin p c') (hw : w.Twin o p w') :
    Together o p Session.Replies (c.act ⟨ip.engine, g⟩ s) w (c'.act ⟨ip.engine, g⟩ s') w' := by
  cases hc with
  | bind key hv =>
    refine together_bind (Session.together_bind_value ip g hs key hv hw) ?_
    intro q t t' w₁ w₁' _ ht hw₁
    exact together_pure hw₁ ⟨.nil, ht⟩
  | evaluate text => exact Session.together_evaluate hlib hs text hw
  | program text => exact Session.together_evaluateProgram hlib hs text hw
  | compile text =>
    refine together_bind (Session.together_compile ip g hs text hw) ?_
    intro q _ _ w₁ w₁' hq _ hw₁
    exact together_pure hw₁ ⟨.nil, hs.mono hq⟩
  | read source =>
    cases source with
    | error text => exact together_throw hw _
    | ok text => exact Session.together_evaluate hlib hs text hw

end LazySession

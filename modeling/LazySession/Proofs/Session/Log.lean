import LazySession.Proofs.Session.RoundTrip
import LazySession.Proofs.Session.Service

/-!
# A session is what its calls have left behind

Of the calls that a session has accepted, those that define or bind something are its log. What the
session tells about itself is worked out here from the log alone: its definitions, its prelude, the
names that are bound with their types and values, and its counts.

`Service.logs_sessions`: every session is the one of its log, whatever was called in between.
-/

namespace LazySession

/-! ## The log -/

/-- What a session keeps of a call that it has accepted. -/
inductive Deed
  | define (text : String)
  | bind (k : BindKey) (value : HostValue)

namespace Deed

def bind? : Deed → Option (BindKey × HostValue)
  | define _ => none
  | bind k value => some (k, value)

/-- The name that is bound. -/
def name? (d : Deed) : Option String := d.bind?.map (·.1.name)

def binds (d : Deed) : Bool := d.bind?.isSome

/-- All bindings, oldest first. -/
def calls (log : List Deed) : List (BindKey × HostValue) := log.filterMap bind?

/-- The log without the bindings of names that had been bound before. -/
def firsts (log : List Deed) : List Deed :=
  log.foldl (fun kept d =>
    if d.binds && (kept.map name?).contains d.name? then kept else kept ++ [d]) []

/-- The names that are bound, in the order in which they first were. -/
def names (log : List Deed) : List String := (firsts log).filterMap name?

/-- What the generator makes of a binding. -/
def declarations? (g : Generator) (d : Deed) : Option Declarations :=
  d.bind?.bind fun (k, _) => (g.declare k.name k.type).toOption

/-- What is added to the definitions. -/
def source (g : Generator) : Deed → String
  | define text => text
  | d@(bind ..) => ((d.declarations? g).map (·.config)).getD ""

/-- What is added to the prelude. -/
def cell (g : Generator) (d : Deed) : String := ((d.declarations? g).map (·.prelude)).getD ""

/-- The definitions of a session: what every deed adds, and the import of the prelude before the
first binding. -/
def definitions (g : Generator) (log : List Deed) : List String :=
  let before := (firsts log).takeWhile (!·.binds)
  let since := (firsts log).dropWhile (!·.binds)
  before.map (source g) ++ (if since = [] then [] else [g.preludeImport]) ++ since.map (source g)

/-- The prelude of a session. -/
def prelude (g : Generator) (log : List Deed) : String :=
  (firsts log).foldl (fun text d => text ++ d.cell g) g.prelude

end Deed

/-- What a session keeps of the call, if it has success. -/
def Call.deed? (c : Call) : Option Deed :=
  match c with
  | .ask (.bind key value) => (BindKey.ofText key).toOption.map (Deed.bind · value)
  | c => c.text?.bind fun text => match Interpreter.fragmentOf? text with
    | some (.definitions _) => some (.define text)
    | _ => none

/-- What the calls leave behind in the log of session `i`. -/
def Service.log (ip : Interpreter) (g : Nat → Generator) (i : Nat) :
    Service → List Visit → List Deed
  | _, [] => []
  | v, x :: xs =>
    (if x.session = i ∧ (v.answer ip g x).isOk then x.call.deed?.toList else []) ++
      log ip g i (v.after ip g x) xs

/-- The session is the one of its log. -/
structure Session.Logs (g : Generator) (log : List Deed) (s : Session) : Prop where
  declared : ∀ d ∈ Deed.firsts log, d.binds → (d.declarations? g).isSome
  definitions : s.definitions = Deed.definitions g log
  prelude : s.prelude = Deed.prelude g log
  names : s.boundNames = Deed.names log
  nodup : s.boundNames.Nodup
  type : ∀ x, (s.bindings.get? x).map (·.type) = firstType (Deed.calls log) x
  value : ∀ x, s.binding? x = lastValue (Deed.calls log) x
  phase : s.phase = ⟨(Deed.names log).length⟩
  reloads : s.reloads = (Deed.calls log).length

/-! ## One more deed -/

namespace Deed

variable {log : List Deed} {k : BindKey} {value : HostValue} {text : String} {g : Generator}

theorem firsts_snoc (log : List Deed) (d : Deed) :
    firsts (log ++ [d]) = if d.binds && ((firsts log).map name?).contains d.name? then firsts log
      else firsts log ++ [d] := by
  unfold firsts
  rw [List.foldl_append]
  rfl

theorem firsts_define : firsts (log ++ [define text]) = firsts log ++ [define text] := by
  rw [firsts_snoc]
  rfl

theorem contains_name? :
    ((firsts log).map name?).contains (bind k value).name? = true ↔ k.name ∈ names log := by
  simp [names, name?, bind?]

theorem firsts_again (value : HostValue) (h : k.name ∈ names log) : firsts (log ++ [bind k value]) = firsts log := by
  rw [firsts_snoc, if_pos]
  rw [Bool.and_eq_true]
  exact ⟨rfl, contains_name?.mpr h⟩

theorem firsts_new (value : HostValue) (h : k.name ∉ names log) :
    firsts (log ++ [bind k value]) = firsts log ++ [bind k value] := by
  rw [firsts_snoc, if_neg]
  rw [Bool.and_eq_true, contains_name?]
  exact fun h' => h h'.2

theorem calls_define : calls (log ++ [define text]) = calls log := by
  simp [calls, bind?]

theorem calls_bind : calls (log ++ [bind k value]) = calls log ++ [(k, value)] := by
  simp [calls, bind?]

theorem names_define : names (log ++ [define text]) = names log := by
  simp [names, firsts_define, name?, bind?]

theorem names_new (value : HostValue) (h : k.name ∉ names log) :
    names (log ++ [bind k value]) = names log ++ [k.name] := by
  rw [names, firsts_new value h]
  simp [names, name?, bind?]

theorem names_eq_nil : names log = [] ↔ (firsts log).dropWhile (!·.binds) = [] := by
  simp [names, List.filterMap_eq_nil_iff, name?, binds]

theorem definitions_of_firsts {d : Deed} {log' : List Deed} (h : firsts log' = firsts log ++ [d]) :
    definitions g log' = definitions g log ++
      ((if d.binds ∧ names log = [] then [g.preludeImport] else []) ++ [d.source g]) := by
  unfold definitions
  rw [h, List.takeWhile_append, List.dropWhile_append]
  simp only [names_eq_nil]
  by_cases hn : (firsts log).dropWhile (!·.binds) = []
  · have htake : (firsts log).takeWhile (!·.binds) = firsts log := by
      have := List.takeWhile_append_dropWhile (p := (!·.binds)) (l := firsts log)
      rwa [hn, List.append_nil] at this
    rw [htake, hn]
    cases hd : d.binds <;> simp [hd]
  · have hlt : ((firsts log).takeWhile (!·.binds)).length ≠ (firsts log).length := by
      have := congrArg List.length
        (List.takeWhile_append_dropWhile (p := (!·.binds)) (l := firsts log))
      rw [List.length_append] at this
      have := List.length_pos_iff.mpr hn
      omega
    simp [hn, hlt]

theorem prelude_of_firsts {d : Deed} {log' : List Deed} (h : firsts log' = firsts log ++ [d]) :
    prelude g log' = prelude g log ++ d.cell g := by
  simp [prelude, h]

end Deed

/-! ## The session that has done it -/

namespace Session

variable {g : Generator} {log : List Deed} {s s' : Session} {k : BindKey} {v : HostValue}

theorem phase_eq (s : Session) : s.phase = ⟨s.boundNames.length⟩ := by
  simp [phase, boundNames, Table.names]

theorem logs_fresh (g : Generator) : (fresh g).Logs g [] where
  declared := nofun
  definitions := rfl
  prelude := rfl
  names := rfl
  nodup := List.nodup_nil
  type _ := rfl
  value _ := rfl
  phase := rfl
  reloads := rfl

theorem Logs.loader (h : s.Logs g log) (l : Loader) : Logs g log { s with loader := l } where
  declared := h.declared
  definitions := h.definitions
  prelude := h.prelude
  names := h.names
  nodup := h.nodup
  type := h.type
  value := h.value
  phase := h.phase
  reloads := h.reloads

theorem Logs.define (h : s.Logs g log) (text : String) :
    Logs g (log ++ [.define text]) { s with history := s.history.prepend [text] } where
  declared d hd hb := by
    rw [Deed.firsts_define, List.mem_append, List.mem_singleton] at hd
    rcases hd with hd | rfl
    · exact h.declared d hd hb
    · cases hb
  definitions := by
    rw [Deed.definitions_of_firsts Deed.firsts_define, ← h.definitions]
    exact program_prepend s.history [text]
  prelude := by
    rw [Deed.prelude_of_firsts Deed.firsts_define, ← h.prelude]
    exact (String.append_empty).symm
  names := by
    rw [Deed.names_define]
    exact h.names
  nodup := h.nodup
  type := by
    rw [Deed.calls_define]
    exact h.type
  value := by
    rw [Deed.calls_define]
    exact h.value
  phase := by
    rw [Deed.names_define]
    exact h.phase
  reloads := by
    rw [Deed.calls_define]
    exact h.reloads

/-- What becomes of the types and the values when a name is bound. -/
theorem Logs.get?_put (h : s.Logs g log) (k : BindKey) {b : Bound} (hb : b.value = v)
    (ht : (s.bindings.get? k.name).map (·.type) = none ∧ b.type = k.type ∨
      (s.bindings.get? k.name).map (·.type) = some b.type) (x : String) :
    ((s.bindings.put k.name b).get? x).map (·.type) =
        firstType (Deed.calls (log ++ [.bind k v])) x ∧
      ((s.bindings.put k.name b).get? x).map (·.value) =
        lastValue (Deed.calls (log ++ [.bind k v])) x := by
  rw [Deed.calls_bind, firstType_snoc, lastValue_snoc, ← h.type, Table.get?_put]
  by_cases hx : k.name = x
  · subst hx
    rcases ht with ⟨hnone, htype⟩ | hsome
    · simp [hnone, htype, hb]
    · simp [hsome, hb]
  · have hvalue := h.value x
    rw [binding?] at hvalue
    simp [hx, hvalue]

/-- A name is bound again: only its value changes. -/
theorem Logs.again (h : s.Logs g log) {old : Bound} (hold : s.bindings.get? k.name = some old)
    (l : Loader) :
    Logs g (log ++ [.bind k v]) { s with
      bindings := s.bindings.put k.name ⟨old.type, v⟩, loader := l, reloads := s.reloads + 1 } := by
  have hmem : k.name ∈ s.bindings.names := Table.get?_isSome.mp (by simp [hold])
  have hnames : (s.bindings.put k.name ⟨old.type, v⟩).names = s.bindings.names := by
    rw [Table.names_put, if_pos hmem]
  have hmem' : k.name ∈ Deed.names log := h.names ▸ hmem
  have hfirsts := Deed.firsts_again v hmem'
  have hnames' : Deed.names (log ++ [.bind k v]) = Deed.names log := by
    rw [Deed.names, hfirsts, Deed.names]
  have hput := h.get?_put k (v := v) (b := ⟨old.type, v⟩) rfl (.inr (by simp [hold]))
  exact {
    declared := hfirsts ▸ h.declared
    definitions := by
      rw [Deed.definitions, hfirsts]
      exact h.definitions
    prelude := by
      rw [Deed.prelude, hfirsts]
      exact h.prelude
    names := by
      rw [hnames', boundNames, hnames]
      exact h.names
    nodup := by
      rw [boundNames, hnames]
      exact h.nodup
    type := fun x => (hput x).1
    value := fun x => (hput x).2
    phase := by
      rw [phase_eq, hnames', boundNames, hnames, ← h.names]
      rfl
    reloads := by
      rw [Deed.calls_bind, List.length_append, ← h.reloads]
      rfl }

/-- A further name is bound. -/
theorem Logs.new (h : s.Logs g log) {d : Declarations} (hd : g.declare k.name k.type = .ok d)
    (hnone : s.bindings.get? k.name = none) (l : Loader) :
    Logs g (log ++ [.bind k v]) { s with
      history := s.history.prepend
        (d.config :: if s.bindings.isEmpty then [g.preludeImport] else [])
      prelude := s.prelude ++ d.prelude
      bindings := s.bindings.put k.name ⟨k.type, v⟩, loader := l, reloads := s.reloads + 1 } := by
  have hnot : k.name ∉ s.bindings.names := Table.get?_eq_none.mp hnone
  have hnames : (s.bindings.put k.name ⟨k.type, v⟩).names = s.bindings.names ++ [k.name] := by
    rw [Table.names_put, if_neg hnot]
  have hnot' : k.name ∉ Deed.names log := h.names ▸ hnot
  have hfirsts := Deed.firsts_new v hnot'
  have hnames' := Deed.names_new v hnot'
  have hdecl : (Deed.bind k v).declarations? g = some d := by
    simp [Deed.declarations?, Deed.bind?, hd, Except.toOption]
  have hput := h.get?_put k (v := v) (b := ⟨k.type, v⟩) rfl (.inl ⟨by simp [hnone], rfl⟩)
  have hempty : s.bindings.isEmpty = true ↔ Deed.names log = [] := by
    rw [← h.names, boundNames, Table.names, List.map_eq_nil_iff, List.isEmpty_iff]
  exact {
    declared := by
      intro e he hb
      rw [hfirsts, List.mem_append, List.mem_singleton] at he
      rcases he with he | rfl
      · exact h.declared e he hb
      · rw [hdecl]
        rfl
    definitions := by
      rw [Deed.definitions_of_firsts hfirsts, ← h.definitions]
      refine (program_prepend s.history _).trans ?_
      by_cases hs : s.bindings.isEmpty = true
      · simp [hs, hempty.mp hs, Session.definitions, Deed.source, hdecl, Deed.binds, Deed.bind?]
      · simp [hs, mt hempty.mpr hs, Session.definitions, Deed.source, hdecl]
    prelude := by
      rw [Deed.prelude_of_firsts hfirsts, ← h.prelude, Deed.cell, hdecl]
      rfl
    names := by
      rw [hnames', boundNames, hnames, ← h.names]
      rfl
    nodup := Table.nodup_put h.nodup _ _
    type := fun x => (hput x).1
    value := fun x => (hput x).2
    phase := by
      rw [phase_eq, hnames', boundNames, hnames, ← h.names]
      rfl
    reloads := by
      rw [Deed.calls_bind, List.length_append, ← h.reloads]
      rfl }

theorem Logs.does (h : s.Logs g log) {c : Call} (hc : c.Does g s s') :
    s'.Logs g (log ++ c.deed?.toList) := by
  have htakes : ∀ {text : String}, s.Takes text s' →
      s'.Logs g (log ++ (Call.read (.ok text)).deed?.toList) := by
    intro text ht
    simp only [Call.deed?, Call.text?, Option.bind_some]
    cases ht with
    | module l ht =>
      simp only [Interpreter.fragmentOf?, ht, Except.toOption, Option.toList_none, List.append_nil]
      exact h.loader l
    | definitions ht =>
      simp only [Interpreter.fragmentOf?, ht, Except.toOption]
      exact h.define text
    | expression ht =>
      simp only [Interpreter.fragmentOf?, ht, Except.toOption, Option.toList_none, List.append_nil]
      exact h
  cases c with
  | ask r =>
    cases r with
    | bind key value =>
      obtain ⟨l, hk, hnext⟩ := hc
      simp only [Call.deed?, hk, Except.toOption, Option.map_some, Option.toList_some]
      rcases bindState_ok hnext with ⟨old, hold, rfl⟩ | ⟨d, hnone, hd, rfl⟩
      · exact h.again hold l
      · exact h.new hd hnone l
    | evaluate text => exact htakes hc
    | program text => exact htakes hc
    | compile text =>
      obtain rfl := hc
      simpa [Call.deed?, Call.text?] using h
  | read source =>
    cases source with
    | ok text => exact htakes hc
    | error message => exact hc.elim

end Session

namespace Service

variable {ip : Interpreter} {g : Nat → Generator}

theorem logs_after {v : Service} (hv : v.Sound) (x : Visit) {i : Nat} {log : List Deed}
    (h : (v.sessions i).Logs (g i) log) :
    ((v.after ip g x).sessions i).Logs (g i)
      (log ++ if x.session = i ∧ (v.answer ip g x).isOk then x.call.deed?.toList else []) := by
  have hdoes := (does_outcome ip g hv x).1
  unfold after answer
  cases hr : (v.outcome ip g x).1 with
  | error e => simpa [Except.map, Except.isOk, Except.toBool] using h
  | ok r =>
    obtain ⟨_, s⟩ := r
    by_cases hi : x.session = i
    · subst hi
      simpa [Except.map, Except.isOk, Except.toBool] using h.does (hdoes _ hr).1
    · simpa [hi, Function.update_of_ne (Ne.symm hi)] using h

theorem logs_play (xs : List Visit) {i : Nat} : ∀ {v : Service} {log : List Deed}, v.Sound →
    (v.sessions i).Logs (g i) log →
    ((v.play ip g xs).sessions i).Logs (g i) (log ++ Service.log ip g i v xs) := by
  induction xs with
  | nil =>
    intro v log _ h
    rw [Service.log, List.append_nil]
    exact h
  | cons x xs ih =>
    intro v log hv h
    rw [Service.log, ← List.append_assoc]
    exact ih (sound_after hv x) (logs_after hv x h)

/-- However sessions are called, with whatever success, each is the one of its log. -/
theorem logs_sessions (ip : Interpreter) (g : Nat → Generator) (capacity : Option Int)
    (xs : List Visit) (i : Nat) :
    (((start g capacity).play ip g xs).sessions i).Logs (g i)
      (log ip g i (start g capacity) xs) :=
  logs_play xs (sound_start g capacity) (Session.logs_fresh (g i))

end Service

end LazySession

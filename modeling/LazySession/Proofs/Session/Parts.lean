import LazySession.Proofs.Session.Log
import Mathlib.Data.Finmap

/-!
# Sessions in parts

A session keeps what is bound in a table, and beside it the order in which the names were first bound.
`Session.Parts` has the two apart, as a map and a list, and `withBinding` changes both. Nothing but this
keeps them in step: `Service.Parts.session_logs` says that after any calls the list has the keys of the
map, each once, and that map, list and all else are those of the log.

`Session.Parts.session` puts the parts together, and calls do with the parts what they do with the
session (`Call.run_actParts`).
-/

namespace LazySession

namespace Session

structure Parts where
  history : History
  loader : Loader
  bindings : Finmap fun _ : String => Bound
  /-- The bound names, those first that were bound first. -/
  order : List String
  prelude : String
  reloads : Nat

namespace Parts

def fresh (g : Generator) : Parts :=
  { history := {}, loader := .empty, bindings := ∅, order := [], prelude := g.prelude, reloads := 0 }

def phase (p : Parts) : Phase := ⟨p.order.length⟩

def definitions (p : Parts) : List String := p.history.program

def binding? (p : Parts) (name : String) : Option HostValue := (p.bindings.lookup name).map (·.value)

/-- Stores a value under a name, which comes last in the order if it is new to the map. -/
def withBinding (p : Parts) (name : String) (b : Bound) : Parts :=
  { p with
    order := if name ∈ p.bindings then p.order else p.order ++ [name]
    bindings := p.bindings.insert name b }

/-- The names in their order, each with what is looked up for it; nothing, if the map lacks it. -/
def table (p : Parts) : Table Bound := p.order.map fun x => (x, (p.bindings.lookup x).getD ⟨"", .nil⟩)

/-- The session that has these parts. -/
def session (p : Parts) : Session where
  history := p.history
  loader := p.loader
  bindings := p.table
  prelude := p.prelude
  reloads := p.reloads

/-- The parts with all that an operation changes in a session besides what is bound. -/
def follow (p : Parts) (s : Session) : Parts :=
  { p with history := s.history, loader := s.loader, reloads := s.reloads }

/-- The parts with a value bound, before the prelude is loaded again. -/
def bindState (g : Generator) (p : Parts) (k : BindKey) (value : HostValue) : Except Error Parts :=
  match p.bindings.lookup k.name with
  | some old =>
    if k.annotation.isSome ∧ k.type ≠ old.type then
      .error (.typeMismatch k.name old.type k.type)
    else .ok (p.withBinding k.name ⟨old.type, value⟩)
  | none => do
    let d ← g.declare k.name k.type
    return { p.withBinding k.name ⟨k.type, value⟩ with
      history := p.history.prepend
        (d.config :: if p.order.isEmpty then [g.preludeImport] else [])
      prelude := p.prelude ++ d.prelude }

def bind (ws : Workshop) (p : Parts) (key : String) (value : HostValue) : Act Parts := do
  lock
  match BindKey.ofText key with
  | .error e => throw (.binding key e)
  | .ok k => match bindState ws.generator p k value with
    | .error e => throw (.binding k.name e)
    | .ok next =>
      tryCatch (do return next.follow (← reload ws next.session)) fun e => throw (.binding k.name e)

end Parts

end Session

/-- What is answered to a call of a session in parts, and the parts after it. -/
def Call.actParts (ws : Workshop) (p : Session.Parts) : Call → Act (HostValue × Session.Parts)
  | .ask (.bind key value) => do return (.nil, ← p.bind ws key value)
  | c => do
    let (a, s) ← c.act ws p.session
    return (a, p.follow s)

/-! ## Map and order -/

namespace Session.Parts

variable {p : Parts}

theorem lookup_withBinding (p : Parts) (name : String) (b : Bound) (x : String) :
    (p.withBinding name b).bindings.lookup x = if x = name then some b else p.bindings.lookup x := by
  by_cases hx : x = name
  · rw [hx, if_pos rfl]
    exact Finmap.lookup_insert _
  · rw [if_neg hx]
    exact Finmap.lookup_insert_of_ne _ hx

/-- The order has the keys of the map, each once. -/
structure Tied (p : Parts) : Prop where
  nodup : p.order.Nodup
  mem : ∀ x, x ∈ p.order ↔ x ∈ p.bindings

theorem tied_fresh (g : Generator) : (fresh g).Tied where
  nodup := List.nodup_nil
  mem x := by simp [fresh, Finmap.notMem_empty]

theorem Tied.withBinding (h : p.Tied) (name : String) (b : Bound) : (p.withBinding name b).Tied where
  nodup := by
    unfold Parts.withBinding
    split
    · exact h.nodup
    · rename_i hname
      rw [← h.mem] at hname
      exact List.nodup_append.mpr ⟨h.nodup, List.nodup_singleton _, fun x hx y hy he =>
        hname (by rwa [← List.mem_singleton.mp hy, ← he])⟩
  mem x := by
    simp only [Parts.withBinding, Finmap.mem_insert, ← h.mem]
    split
    · rename_i hname
      exact ⟨.inr, fun hx => hx.elim (fun he => he ▸ hname) id⟩
    · simp [or_comm]

theorem names_table (p : Parts) : p.table.names = p.order := by
  simp [table, Table.names, Function.comp_def]

theorem Tied.get?_table (h : p.Tied) (x : String) : p.table.get? x = p.bindings.lookup x := by
  cases hx : p.bindings.lookup x with
  | none => rw [Table.get?_eq_none, names_table, h.mem, ← Finmap.lookup_eq_none, hx]
  | some b =>
    refine Table.get?_of_mem (by rw [names_table]; exact h.nodup) ?_
    have hmem : x ∈ p.order := (h.mem x).mpr (Finmap.mem_of_lookup_eq_some hx)
    exact List.mem_map.mpr ⟨x, hmem, by rw [hx]; rfl⟩

theorem put_map {α : Type} (f : String → α) (name : String) (a : α) {xs : List String} (h : xs.Nodup) :
    Table.put (xs.map fun x => (x, f x)) name a =
      (if name ∈ xs then xs else xs ++ [name]).map fun x => (x, if x = name then a else f x) := by
  induction xs with
  | nil => simp [Table.put]
  | cons x xs ih =>
    obtain ⟨hx, hn⟩ := List.nodup_cons.mp h
    rw [List.map_cons, Table.put]
    by_cases he : x = name
    · subst he
      have hrest : xs.map (fun y => (y, f y)) = xs.map fun y => (y, if y = x then a else f y) :=
        List.map_congr_left fun y hy => by rw [if_neg (fun he : y = x => hx (he ▸ hy))]
      simp [hrest]
    · rw [if_neg he, ih hn]
      by_cases hname : name ∈ xs <;> simp [hname, he, Ne.symm he]

theorem Tied.table_withBinding (h : p.Tied) (name : String) (b : Bound) :
    (p.withBinding name b).table = p.table.put name b := by
  have horder : (p.withBinding name b).order = if name ∈ p.order then p.order else p.order ++ [name] := by
    simp only [Parts.withBinding, h.mem]
  rw [table, table, put_map _ name b h.nodup, horder]
  refine List.map_congr_left fun x _ => ?_
  rw [lookup_withBinding]
  by_cases hx : x = name <;> simp [hx]

theorem Tied.session_withBinding (h : p.Tied) (name : String) (b : Bound) :
    (p.withBinding name b).session = { p.session with bindings := p.session.bindings.put name b } := by
  rw [session, h.table_withBinding]
  rfl

theorem Tied.bindState (h : p.Tied) (g : Generator) (k : BindKey) (v : HostValue) :
    (Parts.bindState g p k v).map session = Session.bindState g p.session k v ∧
      ∀ next, Parts.bindState g p k v = .ok next → next.Tied := by
  have hget : p.session.bindings.get? k.name = p.bindings.lookup k.name := h.get?_table k.name
  have hempty : p.session.bindings.isEmpty = p.order.isEmpty := List.isEmpty_map
  unfold Parts.bindState Session.bindState
  cases hold : p.bindings.lookup k.name with
  | some old =>
    rw [hold] at hget
    simp only [hget]
    split
    · exact ⟨rfl, fun _ h => by cases h⟩
    · refine ⟨congrArg Except.ok (h.session_withBinding _ _), ?_⟩
      rintro _ ⟨⟩
      exact h.withBinding _ _
  | none =>
    rw [hold] at hget
    simp only [hget, bindNew, hempty]
    cases hd : g.declare k.name k.type with
    | error e => exact ⟨rfl, fun _ h => by cases h⟩
    | ok d =>
      refine ⟨congrArg Except.ok (congrArg (Session.mk _ _ · _ _)
        (h.table_withBinding k.name ⟨k.type, v⟩)), ?_⟩
      rintro _ ⟨⟩
      have ht := h.withBinding k.name ⟨k.type, v⟩
      exact ⟨ht.nodup, ht.mem⟩

theorem session_follow {s : Session} (hb : s.bindings = p.table) (hp : s.prelude = p.prelude) :
    (p.follow s).session = s := by
  obtain ⟨history, loader, bindings, prelude, reloads⟩ := s
  cases hb
  cases hp
  rfl

theorem Tied.follow (h : p.Tied) (s : Session) : (p.follow s).Tied := ⟨h.nodup, h.mem⟩

/-! ## Calls -/

open Interpreter

/-- What comes of the parts is what comes of the session that has them. -/
def Follows (x : Except Error (HostValue × Parts) × World) (y : Except Error (HostValue × Session) × World) :
    Prop :=
  y = (x.1.map fun r => (r.1, r.2.session), x.2) ∧ ∀ r, x.1 = .ok r → r.2.Tied

theorem follows_bind (ip : Interpreter) (g : Generator) (hp : p.Tied) (key : String) (v : HostValue)
    {w : World} (hw : Faithful w.cache) :
    Follows ((Call.actParts ⟨ip.engine, g⟩ p (.ask (.bind key v))).run w)
      ((Call.act ⟨ip.engine, g⟩ p.session (.ask (.bind key v))).run w) := by
  have hfail : ∀ (e : Error) (w : World), Follows (.error e, w) (.error e, w) := fun _ _ => ⟨rfl, nofun⟩
  have hlock : lock.Meets w (fun _ w' => w' = w) fun _ _ => True := meets_lock rfl trivial
  unfold Act.Meets at hlock
  unfold Call.actParts Call.act Request.perform Parts.bind Session.bind
  simp only [Act.run_bind]
  generalize lock.run w = x at hlock ⊢
  obtain ⟨r, w₁⟩ := x
  cases r with
  | error e => exact hfail e w₁
  | ok u =>
    obtain rfl : w₁ = w := hlock
    cases hk : BindKey.ofText key with
    | error e => exact hfail _ w₁
    | ok k =>
      obtain ⟨hs, htied⟩ := hp.bindState g k v
      cases hnext : Parts.bindState g p k v with
      | error e =>
        rw [hnext] at hs
        simp only [← hs, hnext]
        exact hfail _ w₁
      | ok next =>
        rw [hnext] at hs
        simp only [← hs, hnext, Except.map, Act.run_tryCatch, Act.run_bind, Act.run_pure]
        have hreload := compiles_reload ip g next.session hw
        unfold Act.Meets at hreload
        generalize (reload ⟨ip.engine, g⟩ next.session).run w₁ = x at hreload ⊢
        obtain ⟨r, w₂⟩ := x
        cases r with
        | error e => exact hfail _ w₂
        | ok s =>
          obtain ⟨⟨l, rfl⟩, -⟩ := hreload
          exact ⟨rfl, by rintro _ ⟨⟩; exact (htied next hnext).follow _⟩

theorem follows_act (ip : Interpreter) (g : Generator) (hp : p.Tied) (c : Call)
    {w : World} (hw : Faithful w.cache) :
    Follows ((c.actParts ⟨ip.engine, g⟩ p).run w) ((c.act ⟨ip.engine, g⟩ p.session).run w) := by
  have hother (hc : c.actParts ⟨ip.engine, g⟩ p = (do
        let (a, s) ← c.act ⟨ip.engine, g⟩ p.session
        return (a, p.follow s)))
      (hkeep : ∀ s, c.Does g p.session s → s.bindings = p.table ∧ s.prelude = p.prelude) :
      Follows ((c.actParts ⟨ip.engine, g⟩ p).run w) ((c.act ⟨ip.engine, g⟩ p.session).run w) := by
    have hdoes := Call.does_act ip g p.session c hw
    rw [hc, Act.run_bind]
    unfold Act.Meets at hdoes
    generalize (c.act ⟨ip.engine, g⟩ p.session).run w = x at hdoes ⊢
    obtain ⟨r, w'⟩ := x
    cases r with
    | error e => exact ⟨rfl, nofun⟩
    | ok r =>
      obtain ⟨hb, hpre⟩ := hkeep _ hdoes.1
      refine ⟨?_, by rintro _ ⟨⟩; exact hp.follow _⟩
      change (Except.ok r, w') = (Except.ok (r.1, (p.follow r.2).session), w')
      rw [session_follow hb hpre]
  have htakes : ∀ {text : String} {s : Session}, p.session.Takes text s →
      s.bindings = p.table ∧ s.prelude = p.prelude := by
    rintro text s (_ | _ | _) <;> exact ⟨rfl, rfl⟩
  match c with
  | .ask (.bind key v) => exact follows_bind ip g hp key v hw
  | .ask (.compile text) => exact hother rfl (by rintro s rfl; exact ⟨rfl, rfl⟩)
  | .ask (.evaluate text) | .ask (.program text) | .read (.ok text) => exact hother rfl fun _ => htakes
  | .read (.error text) => exact hother rfl nofun

end Session.Parts

/-! ## Sessions that share an interpreter -/

/-- The world of a service, and its sessions in parts. -/
structure Service.Parts where
  sessions : Nat → Session.Parts
  world : World

namespace Service.Parts

open Interpreter

def start (g : Nat → Generator) (capacity : Option Int) : Parts where
  sessions i := .fresh (g i)
  world := (Service.start g capacity).world

/-- The service that has these parts. -/
def service (v : Parts) : Service := ⟨fun i => (v.sessions i).session, v.world⟩

section
variable (ip : Interpreter) (g : Nat → Generator)

def outcome (v : Parts) (x : Visit) : Except Error (HostValue × Session.Parts) × World :=
  (x.call.actParts ⟨ip.engine, g x.session⟩ (v.sessions x.session)).run
    { v.world with context := x.context }

def after (v : Parts) (x : Visit) : Parts where
  sessions := match (v.outcome ip g x).1 with
    | .ok (_, p) => Function.update v.sessions x.session p
    | .error _ => v.sessions
  world := (v.outcome ip g x).2

def play (v : Parts) (xs : List Visit) : Parts := xs.foldl (after ip g) v

/-- What the calls leave behind in the log of session `i`. -/
def log (i : Nat) : Parts → List Visit → List Deed
  | _, [] => []
  | v, x :: xs =>
    (if x.session = i ∧ (v.outcome ip g x).1.isOk then x.call.deed?.toList else []) ++
      log i (v.after ip g x) xs

end

/-! ## Logs -/

variable (ip : Interpreter) (g : Nat → Generator)

theorem service_after {v : Parts} (hv : ∀ i, (v.sessions i).Tied) (hw : Faithful v.world.cache) (x : Visit) :
    (v.after ip g x).service = v.service.after ip g x ∧ (∀ i, ((v.after ip g x).sessions i).Tied) ∧
      (v.outcome ip g x).1.isOk = (v.service.answer ip g x).isOk := by
  obtain ⟨hout, htied⟩ := Session.Parts.follows_act ip (g x.session) (hv x.session) x.call
    (w := { v.world with context := x.context }) hw
  change v.service.outcome ip g x = ((v.outcome ip g x).1.map _, (v.outcome ip g x).2) at hout
  change ∀ r, (v.outcome ip g x).1 = .ok r → _ at htied
  unfold after Service.after Service.answer
  rw [hout]
  cases hr : (v.outcome ip g x).1 with
  | error e => exact ⟨rfl, hv, rfl⟩
  | ok r =>
    obtain ⟨a, p⟩ := r
    refine ⟨?_, fun i => ?_, rfl⟩
    · have hupdate : (fun i => (Function.update v.sessions x.session p i).session) =
          Function.update v.service.sessions x.session p.session :=
        funext fun i => Function.apply_update (fun _ => Session.Parts.session) v.sessions x.session p i
      exact congrArg (Service.mk · _) hupdate
    · by_cases hi : i = x.session
      · subst hi
        simpa using htied _ hr
      · simpa [Function.update_of_ne hi] using hv i

theorem service_play (xs : List Visit) : ∀ {v : Parts}, (∀ i, (v.sessions i).Tied) → v.service.Sound →
    (v.play ip g xs).service = v.service.play ip g xs ∧ (∀ i, ((v.play ip g xs).sessions i).Tied) ∧
      ∀ i, log ip g i v xs = Service.log ip g i v.service xs := by
  induction xs with
  | nil => exact fun hv _ => ⟨rfl, hv, fun _ => rfl⟩
  | cons x xs ih =>
    intro v hv hs
    obtain ⟨hafter, htied, hok⟩ := service_after ip g hv hs.faithful x
    obtain ⟨hplay, htied, hlog⟩ := ih htied (hafter ▸ Service.sound_after hs x)
    rw [hafter] at hplay hlog
    refine ⟨hplay, htied, fun i => ?_⟩
    rw [log, Service.log, hok, hlog]

end Service.Parts

/-- The parts are those of their log: the order has the keys of the map, each once, and the map has for
each the type of its first binding and the value of its last. -/
structure Session.Parts.Logs (g : Generator) (log : List Deed) (p : Session.Parts) : Prop where
  declared : ∀ d ∈ Deed.firsts log, d.binds → (d.declarations? g).isSome
  definitions : p.definitions = Deed.definitions g log
  prelude : p.prelude = Deed.prelude g log
  names : p.order = Deed.names log
  nodup : p.order.Nodup
  keys : p.bindings.keys = p.order.toFinset
  type : ∀ x, (p.bindings.lookup x).map (·.type) = firstType (Deed.calls log) x
  value : ∀ x, p.binding? x = lastValue (Deed.calls log) x
  phase : p.phase = ⟨(Deed.names log).length⟩
  reloads : p.reloads = (Deed.calls log).length

theorem Session.Parts.Tied.logs {g : Generator} {log : List Deed} {p : Session.Parts} (hp : p.Tied)
    (h : p.session.Logs g log) : p.Logs g log where
  declared := h.declared
  definitions := h.definitions
  prelude := h.prelude
  names := p.names_table ▸ h.names
  nodup := hp.nodup
  keys := by
    ext x
    rw [Finmap.mem_keys, List.mem_toFinset, hp.mem]
  type x := hp.get?_table x ▸ h.type x
  value x := by
    have hx := h.value x
    rw [Session.binding?, show p.session.bindings.get? x = p.bindings.lookup x from hp.get?_table x] at hx
    exact hx
  phase := by rw [Session.Parts.phase, ← p.names_table, show p.table.names = _ from h.names]
  reloads := h.reloads

/-- **A session is the log of what it has accepted.** However sessions are called, with whatever success,
all that each of them keeps, the order of its names as well as the map beside it, is what its log says. -/
theorem Service.Parts.session_logs (ip : Interpreter) (g : Nat → Generator) (capacity : Option Int)
    (xs : List Visit) :
    ((start g capacity).play ip g xs).service = (Service.start g capacity).play ip g xs ∧
      ∀ i, (((start g capacity).play ip g xs).sessions i).Logs (g i) (log ip g i (start g capacity) xs) := by
  have hstart : (start g capacity).service = Service.start g capacity := rfl
  have htied : ∀ i, ((start g capacity).sessions i).Tied := fun i => Session.Parts.tied_fresh (g i)
  obtain ⟨hplay, htied, hlog⟩ := service_play ip g xs htied (hstart ▸ Service.sound_start g capacity)
  rw [hstart] at hplay hlog
  refine ⟨hplay, fun i => (htied i).logs ?_⟩
  have hs := Service.logs_sessions ip g capacity xs i
  rw [← hplay, ← hlog] at hs
  exact hs

end LazySession

import LazySession.Proofs.Twin.Craft
import LazySession.Proofs.Twin.Session

/-!
# Sessions do not see each other

Clients send sessions their orders, in any order, and all sessions work in one world with one cache.
What a client binds is a datum, an object that its own session has answered with before, or one that it
has made itself, so no object goes from one session to another.

`Office.sessions_isolated`: every session answers as it does alone in a world of its own, without a
cache. For each session, what it has made in the shared world is the twin of what it makes alone, and
no two sessions have a thing in common (`Office.Isolates`).

The functions of the host are taken to have no memory and to make nothing of addresses
(`HostLibrary.Natural`): a function that counts its calls would pass something from one session to
another. Thunks and errors are made by the language alone (`Craft`).
-/

namespace LazySession

/-! ## Things of several owners in one array -/

/-- Each owner's array has its mirror image in the shared one, and no place there has two owners. -/
structure Shares {α : Type} (r : Nat → Nat → Nat → Prop) (R : Nat → α → α → Prop)
    (xs : Nat → Array α) (ys : Array α) : Prop where
  mirrors : ∀ i, Mirrors (r i) (R i) (fun _ => False) ys (xs i) ys
  separate : ∀ {i j a b c}, r i a c → r j b c → i = j

/-- The places of all owners but one. -/
def besides (r : Nat → Nat → Nat → Prop) (i : Nat) : Nat → Prop := fun c => ∃ j a, j ≠ i ∧ r j a c

namespace Shares

variable {α : Type} {r r' : Nat → Nat → Nat → Prop} {R R' : Nat → α → α → Prop}
variable {xs xs' : Nat → Array α} {ys ys' : Array α} {i : Nat}

theorem apart (h : Shares r R xs ys) (i : Nat) :
    Mirrors (r i) (R i) (besides r i) ys (xs i) ys where
  unique := (h.mirrors i).unique
  related := (h.mirrors i).related
  apart := by
    rintro c ⟨j, a, hne, hj⟩
    exact ⟨fun b hi => hne (h.separate hj hi), ((h.mirrors j).lt hj).2, rfl⟩

theorem step (h : Shares r R xs ys) (hi : Mirrors (r' i) (R' i) (besides r i) ys (xs' i) ys')
    (hj : ∀ j, j ≠ i → r' j = r j ∧ R' j = R j ∧ xs' j = xs j) : Shares r' R' xs' ys' where
  mirrors j := by
    by_cases hji : j = i
    · subst hji
      exact ⟨hi.unique, hi.related, False.elim⟩
    · obtain ⟨hr, hR, hxs⟩ := hj j hji
      rw [hr, hR, hxs]
      refine ⟨(h.mirrors j).unique, fun {a c} hac => ?_, False.elim⟩
      obtain ⟨x, y, hx, hy, hxy⟩ := (h.mirrors j).related hac
      refine ⟨x, y, hx, ?_, hxy⟩
      rw [(hi.apart ⟨j, a, hji, hac⟩).2.2, hy]
  separate {j k a b c} hja hkb := by
    by_cases hji : j = i
    · by_cases hki : k = i
      · rw [hji, hki]
      · subst hji
        rw [(hj k hki).1] at hkb
        exact absurd hja ((hi.apart ⟨k, b, hki, hkb⟩).1 a)
    · rw [(hj j hji).1] at hja
      by_cases hki : k = i
      · subst hki
        exact absurd hkb ((hi.apart ⟨j, a, hji, hja⟩).1 b)
      · rw [(hj k hki).1] at hkb
        exact h.separate hja hkb

end Shares

/-! ## Clients -/

/-- What a client has bound: nothing, a datum, or what its errand of this number has come to. -/
inductive Gift
  | nil
  | data (d : HostData)
  | known (n : Nat)

inductive Order
  /-- An object is made, which may be bound later. -/
  | make (craft : Craft)
  | bind (key : String) (gift : Gift)
  | evaluate (text : String)
  | program (text : String)
  | compile (text : String)
  | read (source : Except String String)

/-- An order for a session, and how long it may take. -/
structure Errand where
  session : Nat
  context : Context
  order : Order

/-- Sessions, and what the errands for each of them have come to so far: answers, and made objects. -/
structure Office where
  service : Service
  answers : Nat → List (Except Error HostValue)

/-- What is seen of a value: an object is seen by its kind and its text. -/
inductive Shown
  | nil
  | data (d : HostData)
  | object (kind text : String)

def Value.kind : Value → String
  | .int _ => "INTEGER"
  | .bool _ => "BOOLEAN"
  | .str _ => "STRING"
  | .unit => "UNIT"
  | .closure _ => "FUNCTION"
  | .builtin _ => "BUILTIN"
  | .partialApp _ _ => "PARTIAL"
  | .cell _ => "REF"
  | .thunk _ => "THUNK"
  | .host _ | .noHost => "GO_VALUE"

theorem Value.Twin.kind {p : Pairing} {v v' : Value} (h : v.Twin p v') : v'.kind = v.kind := by
  cases h <;> rfl

def HostValue.shown (h : Heap) : HostValue → Shown
  | .nil => .nil
  | .data d => .data d
  | .object v => .object v.kind (h.inspect v)

def Gift.value (known : Nat → HostValue) : Gift → HostValue
  | nil => .nil
  | data d => .data d
  | .known n => known n

/-- What is to be done, with what the client knows: an object is made, or the session is called. -/
def Order.work (known : Nat → HostValue) : Order → Craft ⊕ Call
  | make craft => .inl craft
  | bind key gift => .inr (.ask (.bind key (gift.value known)))
  | evaluate text => .inr (.ask (.evaluate text))
  | program text => .inr (.ask (.program text))
  | compile text => .inr (.ask (.compile text))
  | read source => .inr (.read source)

namespace Office

def start (g : Nat → Generator) (capacity : Option Int) : Office where
  service := .start g capacity
  answers _ := []

/-- What the errand `n` for session `i` has come to, if it had success. -/
def known (v : Office) (i n : Nat) : HostValue := match (v.answers i)[n]? with
  | some (.ok a) => a
  | _ => .nil

def answered (v : Office) (i : Nat) (a : Except Error HostValue) : Nat → List (Except Error HostValue) :=
  Function.update v.answers i (v.answers i ++ [a])

/-- The client of session `i` makes an object. -/
def make (v : Office) (i : Nat) (c : Craft) : Office where
  service := v.service.make (v.known i) c
  answers := v.answered i (.ok (c.value (v.known i) v.service.world.heap))

section
variable (ip : Interpreter) (g : Nat → Generator)

def call (v : Office) (x : Visit) : Office where
  service := v.service.after ip g x
  answers := v.answered x.session (v.service.answer ip g x)

def serve (v : Office) (x : Errand) : Office := match x.order.work (v.known x.session) with
  | .inl craft => v.make x.session craft
  | .inr call => v.call ip g ⟨x.session, x.context, call⟩

def play (v : Office) (xs : List Errand) : Office := xs.foldl (serve ip g) v

end

/-- What is seen of the answers of a session by now. -/
def shown (v : Office) (i : Nat) : List (Except Error Shown) :=
  (v.answers i).map (·.map (HostValue.shown v.service.world.heap))

/-! ## Isolation -/

/-- For every session `i` there is an office `u i` in which it is alone, and what is paired for it
there and in the shared office is the same but for addresses. -/
structure Isolates (p : Nat → WorldPairing) (u : Nat → Office) (v : Office) : Prop where
  thunks : Shares (fun i => (p i).heap.thunks) (fun i => Thunk.Twin (p i).heap)
    (fun i => (u i).service.world.heap.thunks) v.service.world.heap.thunks
  cells : Shares (fun i => (p i).heap.cells) (fun i => Option.Rel (Value.Twin (p i).heap))
    (fun i => (u i).service.world.heap.cells) v.service.world.heap.cells
  scopes : Shares (fun i => (p i).heap.scopes) (fun i => Scope.Twin (p i).heap)
    (fun i => (u i).service.world.heap.scopes) v.service.world.heap.scopes
  entries : Shares (fun i => (p i).entries) (fun i => Entry.Twin (p i))
    (fun i => (u i).service.world.entries) v.service.world.entries
  instances : Shares (fun i => (p i).instances) (fun i => Instance.Twin (p i))
    (fun i => (u i).service.world.instances) v.service.world.instances
  nested : ∀ i {a b}, (p i).heap.scopes a b →
    (u i).service.world.heap.Nested a ∧ v.service.world.heap.Nested b
  truthful : ∀ i, Interpreter.Truthful (u i).service.world.cache ∧
    Interpreter.Truthful v.service.world.cache
  session : ∀ i, ((u i).service.sessions i).Twin (p i) (v.service.sessions i)
  answers : ∀ i, List.Forall₂ (Agrees (HostValue.Twin (p i).heap)) ((u i).answers i) (v.answers i)

variable {p : Nat → WorldPairing} {u : Nat → Office} {v : Office}

theorem rel_getElem? {α β : Type} {R : α → β → Prop} {l : List α} {l' : List β}
    (h : List.Forall₂ R l l') : ∀ n : Nat, Option.Rel R l[n]? l'[n]? := by
  induction h with
  | nil => exact fun _ => .none
  | cons hab _ ih =>
    intro n
    cases n with
    | zero => exact .some hab
    | succ n =>
      simp only [List.getElem?_cons_succ]
      exact ih n

/-- What belongs to the sessions besides `i`. -/
def others (p : Nat → WorldPairing) (v : Office) (i : Nat) : Apart where
  world := v.service.world
  thunks := besides (fun j => (p j).heap.thunks) i
  cells := besides (fun j => (p j).heap.cells) i
  scopes := besides (fun j => (p j).heap.scopes) i
  entries := besides (fun j => (p j).entries) i
  instances := besides (fun j => (p j).instances) i

theorem Isolates.twin (h : Isolates p u v) (i : Nat) (context : Context) :
    World.Twin (others p v i) (p i) { (u i).service.world with context }
      { v.service.world with context } where
  heap := ⟨h.thunks.apart i, h.cells.apart i, h.scopes.apart i, h.nested i⟩
  entries := h.entries.apart i
  instances := h.instances.apart i
  context := rfl
  truthful := h.truthful i

theorem Isolates.known (h : Isolates p u v) (i n : Nat) :
    ((u i).known i n).Twin (p i).heap (v.known i n) := by
  unfold Office.known
  rcases rel_cases (rel_getElem? (h.answers i) n) with ⟨he, he'⟩ | ⟨r, r', he, he', hr⟩
  · rw [he, he']
    exact .nil
  · rw [he, he']
    cases hr with
    | error e => exact .nil
    | ok hv => exact hv

/-- Session `i` has worked, alone and among the others, and has touched nothing of theirs. -/
theorem Isolates.step (h : Isolates p u v) {i : Nat} {q : WorldPairing} (hq : (p i).Within q)
    {u' v' : Office} (hw : World.Twin (others p v i) q { u'.service.world with context := {} }
      { v'.service.world with context := {} })
    (hs : (u'.service.sessions i).Twin q (v'.service.sessions i))
    (hothers : ∀ j, j ≠ i → v'.service.sessions j = v.service.sessions j)
    {a a' : Except Error HostValue} (ha : Agrees (HostValue.Twin q.heap) a a')
    (hu : u'.answers = (u i).answered i a) (hv : v'.answers = v.answered i a') :
    Isolates (Function.update p i q) (Function.update u i u') v' := by
  refine ⟨?_, ?_, ?_, ?_, ?_, ?_, ?_, ?_, ?_⟩
  · refine h.thunks.step (i := i) ?_ fun j hj => by simp only [Function.update_of_ne hj, and_self]
    simp only [Function.update_self]
    exact hw.heap.thunks
  · refine h.cells.step (i := i) ?_ fun j hj => by simp only [Function.update_of_ne hj, and_self]
    simp only [Function.update_self]
    exact hw.heap.cells
  · refine h.scopes.step (i := i) ?_ fun j hj => by simp only [Function.update_of_ne hj, and_self]
    simp only [Function.update_self]
    exact hw.heap.scopes
  · refine h.entries.step (i := i) ?_ fun j hj => by simp only [Function.update_of_ne hj, and_self]
    simp only [Function.update_self]
    exact hw.entries
  · refine h.instances.step (i := i) ?_ fun j hj => by simp only [Function.update_of_ne hj, and_self]
    simp only [Function.update_self]
    exact hw.instances
  · intro j a b hab
    -- what nests in a scope of another session is told by the heap alone: it was there before
    by_cases hj : j = i
    · subst hj
      simp only [Function.update_self] at hab ⊢
      exact hw.heap.nested hab
    · simp only [Function.update_of_ne hj] at hab ⊢
      refine ⟨(h.nested j hab).1, fun s o hs ho => (h.nested j hab).2 s o ?_ ho⟩
      rw [← hs]
      exact (hw.heap.scopes.apart ⟨j, a, hj, hab⟩).2.2.symm
  · intro j
    refine ⟨?_, hw.truthful.2⟩
    by_cases hj : j = i
    · subst hj
      simp only [Function.update_self]
      exact hw.truthful.1
    · simp only [Function.update_of_ne hj]
      exact (h.truthful j).1
  · intro j
    by_cases hj : j = i
    · subst hj
      simp only [Function.update_self]
      exact hs
    · rw [hothers j hj]
      simp only [Function.update_of_ne hj]
      exact h.session j
  · intro j
    rw [hv]
    by_cases hj : j = i
    · subst hj
      simp only [Function.update_self, hu, answered]
      refine List.rel_append ?_ (.cons ha .nil)
      exact (h.answers j).imp fun _ _ ha => ha.imp fun _ _ hv => hv.mono hq.heap
    · simp only [Function.update_of_ne hj, answered]
      exact h.answers j

theorem Isolates.make (h : Isolates p u v) (i : Nat) (c : Craft) :
    ∃ p', Isolates p' (Function.update u i ((u i).make i c)) (v.make i c) := by
  obtain ⟨q, hq, hr, hheap⟩ := c.make_twin (h.twin i {}).heap (h.known i)
  have hw := (h.twin i {}).withHeap hq hheap
  have hvalue := Craft.value_twin hr
  exact ⟨_, h.step (WorldPairing.within_heap hq) hw ((h.session i).mono (WorldPairing.within_heap hq))
    (fun _ _ => rfl) (.ok hvalue) rfl rfl⟩

section
variable {ip : Interpreter} {g : Nat → Generator}

theorem Isolates.call (hlib : ip.setting.host.Natural) (h : Isolates p u v) (i : Nat) (context : Context)
    {c c' : Call} (hc : c.Twin (p i) c') :
    ∃ p', Isolates p' (Function.update u i ((u i).call ip g ⟨i, context, c⟩)) (v.call ip g ⟨i, context, c'⟩) := by
  obtain ⟨q, hq, hr, hw⟩ := Call.together_act hlib (g i) (h.session i) hc (h.twin i context)
  have hsessions : Session.Twin q (((u i).call ip g ⟨i, context, c⟩).service.sessions i)
      ((v.call ip g ⟨i, context, c'⟩).service.sessions i) := by
    simp only [Office.call, Service.after, Service.outcome]
    rcases hr.cases with ⟨e, he, he'⟩ | ⟨⟨_, s⟩, ⟨_, s'⟩, he, he', -, hs⟩
    · rw [he, he']
      exact (h.session i).mono hq
    · rw [he, he']
      simpa using hs
  have hanswer : Agrees (HostValue.Twin q.heap) ((u i).service.answer ip g ⟨i, context, c⟩)
      (v.service.answer ip g ⟨i, context, c'⟩) := by
    simp only [Service.answer, Service.outcome]
    rcases hr.cases with ⟨e, he, he'⟩ | ⟨⟨a, _⟩, ⟨a', _⟩, he, he', ha, -⟩
    · rw [he, he']
      exact .error e
    · rw [he, he']
      exact .ok ha
  refine ⟨_, h.step hq (hw.withContext {}) hsessions (fun j hj => ?_) hanswer rfl rfl⟩
  simp only [Office.call, Service.after]
  generalize (v.service.outcome ip g _).1 = r
  cases r with
  | ok r => exact Function.update_of_ne hj _ _
  | error e => rfl

theorem Isolates.serve (hlib : ip.setting.host.Natural) (h : Isolates p u v) (x : Errand) :
    ∃ p', Isolates p' (Function.update u x.session ((u x.session).serve ip g x)) (v.serve ip g x) := by
  obtain ⟨i, context, order⟩ := x
  cases order with
  | make craft => exact h.make i craft
  | bind key gift =>
    refine h.call hlib i context (.bind key ?_)
    cases gift with
    | nil => exact .nil
    | data d => exact .data d
    | known n => exact h.known i n
  | evaluate text => exact h.call hlib i context (.evaluate text)
  | program text => exact h.call hlib i context (.program text)
  | compile text => exact h.call hlib i context (.compile text)
  | read source => exact h.call hlib i context (.read source)

theorem Isolates.play (hlib : ip.setting.host.Natural) (xs : List Errand) :
    ∀ {p : Nat → WorldPairing} {u : Nat → Office} {v : Office}, Isolates p u v →
      ∃ p', Isolates p' (fun i => (u i).play ip g (xs.filter (·.session = i))) (v.play ip g xs) := by
  induction xs with
  | nil => exact fun h => ⟨_, h⟩
  | cons x xs ih =>
    intro p u v h
    obtain ⟨p₁, h₁⟩ := h.serve (g := g) hlib x
    obtain ⟨p₂, h₂⟩ := ih h₁
    -- alone, only the session that is called goes on
    have hu : (fun i => (u i).play ip g ((x :: xs).filter (·.session = i))) = fun i =>
        (Function.update u x.session ((u x.session).serve ip g x) i).play ip g
          (xs.filter (·.session = i)) := by
      funext i
      by_cases hi : x.session = i
      · subst hi
        simp [Office.play, Function.update_self]
      · have hne : i ≠ x.session := fun he => hi he.symm
        simp [hi, Function.update_of_ne hne]
    refine ⟨p₂, ?_⟩
    rw [hu]
    exact h₂

end

theorem Isolates.shown (h : Isolates p u v) (i : Nat) : v.shown i = (u i).shown i := by
  have htwin := (h.twin i {}).heap
  unfold Office.shown
  rw [← List.forall₂_eq_eq_eq, List.forall₂_map_left_iff, List.forall₂_map_right_iff]
  refine (h.answers i).flip.imp fun r' r hr => ?_
  cases hr with
  | error e => rfl
  | ok hv =>
    cases hv with
    | nil => rfl
    | data d => rfl
    | object hv =>
      have hkind := hv.kind
      have htext := htwin.inspect hv
      simp only [Except.map, HostValue.shown]
      rw [hkind]
      exact congrArg (fun t => Except.ok (Shown.object _ t)) htext

end Office

end LazySession

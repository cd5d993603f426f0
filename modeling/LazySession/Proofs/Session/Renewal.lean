import LazySession.Proofs.Session.Requests

/-!
# Which instances are older than a binding

A binding gives fresh entries to the prelude and to everything that imports it, directly or not.
`Session.Parted` keeps the entries of that time apart from those that came after it: modules with
old entries import only such modules, and entries that came after are linked only to instances that
did so too. `Session.Parted.recent`: so no module that leads to the prelude holds an instance from
before the binding.
-/

namespace LazySession

namespace World

/-- From `w` to `w'`, entries are linked only to instances that were not there before. -/
structure LinksNew (w w' : World) : Prop where
  instances : w.instances.size ≤ w'.instances.size
  linked : ∀ (id : EntryId) (e' : Entry) (i : InstanceId), w'.entries[id]? = some e' →
    e'.linked = some i →
    (∃ e, w.entries[id]? = some e ∧ e.linked = some i) ∨ w.instances.size ≤ i

variable {w w' w'' : World}

theorem linksNew_of_eq (hi : w'.instances = w.instances) (he : w'.entries = w.entries) :
    LinksNew w w' where
  instances := by rw [hi]
  linked id e' i he' hlinked := .inl ⟨e', he ▸ he', hlinked⟩

theorem LinksNew.trans (h : LinksNew w w') (h' : LinksNew w' w'') : LinksNew w w'' where
  instances := Nat.le_trans h.instances h'.instances
  linked id e'' i he'' hlinked := by
    rcases h'.linked id e'' i he'' hlinked with ⟨e', he', hlinked'⟩ | hle
    · exact h.linked id e' i he' hlinked'
    · exact .inr (Nat.le_trans h.instances hle)

theorem linksNew_reads (h : Interpreter.Reads w w') : LinksNew w w' := by
  obtain ⟨_, _, _, _, rfl⟩ := h
  exact linksNew_of_eq rfl rfl

theorem linksNew_extend {l : Loader} (hk : l.Keyed w) (mods : List ModuleCode) :
    LinksNew w (l.extend mods w).2 := by
  obtain ⟨_, _, r, -⟩ := Loader.renews_extend hk mods
  refine ⟨by rw [r.world], fun id e i he hlinked => ?_⟩
  by_cases hlt : id < w.entries.size
  · exact .inl ⟨e, by rw [← r.old id hlt]; exact he, hlinked⟩
  · rw [r.unlinked id e (Nat.not_lt.mp hlt) he] at hlinked
    cases hlinked

theorem Keeps.entries_size {opened : List ScopeId} (h : Keeps opened w w') :
    w.entries.size ≤ w'.entries.size := by
  refine Nat.le_of_not_lt fun hlt => ?_
  obtain ⟨_, he, -⟩ := h.entries w'.entries.size _ (Array.getElem?_eq_getElem hlt)
  exact Nat.lt_irrefl _ (Array.getElem?_eq_some_iff.mp he).1

end World

namespace Session

open Interpreter World
open Loader (Holding)

/-- What a request does to the loader of a session and to its world: modules are linked, or the
loader is extended. -/
inductive Evolves (l : Loader) (w : World) : Loader → World → Prop
  | same {w' : World} (hk : w.Keeps [] w') (hn : w.LinksNew w') : Evolves l w l w'
  | extend {w₁ : World} (hr : Reads w w₁) (mods : List ModuleCode) :
    Evolves l w (l.extend mods w₁).1 (l.extend mods w₁).2

section
variable {s s' : Session} {w w' : World} {k : BindKey} {v : HostValue}

theorem Evolves.of_reads {w₁ : World} {l l' : Loader} (h : Evolves l w₁ l' w') (hr : Reads w w₁) :
    Evolves l w l' w' := by
  cases h with
  | same hk hn => exact .same ((keeps_reads hr).trans hk) ((linksNew_reads hr).trans hn)
  | extend hr' mods => exact .extend (hr.trans hr') mods

/-- There was a time when there were so many entries and so many instances. Modules with entries from
before it import only such modules, and entries that came after it are linked to instances that did
so too. -/
structure Parted (entries instances : Nat) (l : Loader) (w : World) : Prop where
  entries_le : entries ≤ w.entries.size
  instances_le : instances ≤ w.instances.size
  old : ∀ n id c, l.modules.get? n = some id → id < entries → l.code? w n = some c →
    ∀ i ∈ c.imports, ∀ id', l.modules.get? i = some id' → id' < entries
  new : ∀ (id : EntryId) (e : Entry) (i : InstanceId), entries ≤ id → w.entries[id]? = some e →
    e.linked = some i → instances ≤ i

variable {entries instances : Nat} {l l' : Loader}

theorem Parted.links (h : Parted entries instances l w) (hn : w.LinksNew w')
    (hsize : w.entries.size ≤ w'.entries.size) (hcode : ∀ n, l.code? w' n = l.code? w n) :
    Parted entries instances l w' where
  entries_le := Nat.le_trans h.entries_le hsize
  instances_le := Nat.le_trans h.instances_le hn.instances
  old n id c hid hlt hc := h.old n id c hid hlt (hcode n ▸ hc)
  new id e i hle he hlinked := by
    rcases hn.linked id e i he hlinked with ⟨e', he', hlinked'⟩ | hi
    · exact h.new id e' i hle he' hlinked'
    · exact Nat.le_trans h.instances_le hi

theorem Parted.reads (h : Parted entries instances l w) (hk : l.Keyed w) (hr : Reads w w') :
    Parted entries instances l w' :=
  h.links (linksNew_reads hr) (keeps_reads hr).entries_size fun _ =>
    Loader.code?_keeps hk (keeps_reads hr)

theorem Parted.extend (h : Parted entries instances l w) (hk : l.Keyed w) (mods : List ModuleCode) :
    Parted entries instances (l.extend mods w).1 (l.extend mods w).2 := by
  have hlinks := h.links (linksNew_extend hk mods) (Family.keeps_extend hk mods).1.entries_size
    fun n => Loader.code?_keeps hk (Family.keeps_extend hk mods).1
  refine ⟨hlinks.entries_le, hlinks.instances_le, fun n id c hid hlt hc i hi id' hid' => ?_, hlinks.new⟩
  obtain ⟨_, fresh, r, -, -, hclosed⟩ := Loader.renews_extend hk mods
  have hold : ∀ {k id}, (l.extend mods w).1.modules.get? k = some id → id < entries → k ∉ fresh := by
    intro k id hid hlt hm
    obtain ⟨id', -, hid', hle, -⟩ := r.new k hm
    rw [hid] at hid'
    cases hid'
    exact absurd (Nat.le_trans h.entries_le hle) (Nat.not_le.mpr hlt)
  have hn := hold hid hlt
  have hcode : l.code? w n = some c := by
    rw [r.kept n hn] at hid
    rw [← hc, Loader.code?, Loader.code?, r.kept n hn, hid]
    simp only [Option.bind_some, r.old id (Nat.lt_of_lt_of_le hlt h.entries_le)]
  rw [r.kept n hn] at hid
  rw [r.kept i (hclosed n c hn hcode i hi)] at hid'
  exact h.old n id c hid hlt hcode i hi id' hid'

theorem Parted.context (h : Parted entries instances l w) (context : Context) :
    Parted entries instances l { w with context } :=
  ⟨h.entries_le, h.instances_le, h.old, h.new⟩

end

end Session

namespace Moment

open Session

variable {ip : Interpreter} {m m' : Moment} {entries instances : Nat}

/-- Requests lead from one moment to the other. None of them submits a module with the name of the
prelude. -/
abbrev Later (ip : Interpreter) : Moment → Moment → Prop :=
  Relation.ReflTransGen fun m m' => ∃ context r, r.Spares ∧ m' = m.after ip context r

end Moment

end LazySession

import LazySession.Host.Craft
import LazySession.Proofs.Eval.Framing
import LazySession.Proofs.Loader.Names
import LazySession.Proofs.Twin.Calls

/-!
# Twins that a host makes

`Craft.make_twin`: of twins, a host makes twins. Of what is there already, only cells change
(`Craft.fills_make`, `Craft.adds_make`).
-/

namespace LazySession

variable {o : Outside} {p : Pairing} {h h' : Heap}

theorem Value.twin_of_isAlone {v : Value} (h : v.isAlone = true) : v.Twin p v := by
  cases v with
  | int v => exact .int v
  | bool b => exact .bool b
  | str s => exact .str s
  | unit => exact .unit
  | builtin b => exact .builtin b
  | host d => exact .host d
  | noHost => exact .noHost
  | _ => cases h

namespace Craft

variable {known known' : Nat → HostValue}

theorem surroundings_twin (ht : h.Twin o p h') (hk : ∀ n, (known n).Twin p (known' n)) (around : Option Nat) :
    ∃ q, p.Within q ∧ q.scopes (surroundings known h around).1 (surroundings known' h' around).1 ∧
      (surroundings known h around).2.Twin o q (surroundings known' h' around).2 := by
  have hbuiltins : Table.Twin (Value.Held p) (Builtin.all.map fun b => (b.name, .builtin b))
      (Builtin.all.map fun b => (b.name, .builtin b)) :=
    List.forall₂_same.mpr fun x hx => by
      obtain ⟨b, -, rfl⟩ := List.mem_map.mp hx
      exact ⟨rfl, .value (.builtin b)⟩
  have hroot : ∃ q, p.Within q ∧ q.scopes h.newRoot.1 h'.newRoot.1 ∧ h.newRoot.2.Twin o q h'.newRoot.2 :=
    ⟨_, p.within_addScope, .inr ⟨rfl, rfl⟩, ht.newScope hbuiltins .none⟩
  unfold surroundings
  cases around with
  | none => exact hroot
  | some n =>
    have hv := (hk n).toValue
    simp only [Option.map_some]
    generalize (known n).toValue = v at hv ⊢
    generalize (known' n).toValue = v' at hv ⊢
    cases hv with
    | closure hc => exact ⟨p, .refl p, hc.scope, ht⟩
    | _ => exact hroot

theorem environment_twin (ht : h.Twin o p h') (hk : ∀ n, (known n).Twin p (known' n)) (around : Option Nat)
    (vars : Table Nat) :
    ∃ q, p.Within q ∧ q.scopes (environment known h around vars).1 (environment known' h' around vars).1 ∧
      (environment known h around vars).2.Twin o q (environment known' h' around vars).2 := by
  obtain ⟨q, hq, hscopes, hheap⟩ := surroundings_twin ht hk around
  have hvars : Table.Twin (Value.Held q) (vars.map fun x => (x.1, (known x.2).toValue))
      (vars.map fun x => (x.1, (known' x.2).toValue)) := by
    refine List.forall₂_map_left_iff.mpr (List.forall₂_map_right_iff.mpr (List.forall₂_same.mpr ?_))
    exact fun x _ => ⟨rfl, .value ((hk x.2).toValue.mono hq)⟩
  exact ⟨_, hq.trans q.within_addScope, .inr ⟨rfl, rfl⟩, hheap.newScope hvars (.some hscopes)⟩

/-- **Of twins, a host makes twins.** -/
theorem make_twin (ht : h.Twin o p h') (hk : ∀ n, (known n).Twin p (known' n)) (c : Craft) :
    ∃ q, p.Within q ∧ Option.Rel (Value.Twin q) (c.make known h).1 (c.make known' h').1 ∧
      (c.make known h).2.Twin o q (c.make known' h').2 := by
  cases c with
  | alone v hv => exact ⟨p, .refl p, .some (Value.twin_of_isAlone hv), ht⟩
  | cell content =>
    have hcontent : Option.Rel (Value.Twin p) (content.map fun n => (known n).toValue)
        (content.map fun n => (known' n).toValue) := by
      cases content with
      | none => exact .none
      | some n => exact .some (hk n).toValue
    exact ⟨_, p.within_addCell, .some (.cell (.inr ⟨rfl, rfl⟩)), ht.newCell hcontent⟩
  | refilled old content =>
    refine ⟨p, .refl p, ?_⟩
    have hcell := (hk old).toValue
    simp only [make]
    generalize (known old).toValue = v at hcell ⊢
    generalize (known' old).toValue = v' at hcell ⊢
    cases hcell with
    | cell hid => exact ⟨.some (.cell hid), ht.setCell hid (hk content).toValue⟩
    | _ => exact ⟨.none, ht⟩
  | partialApp fn args =>
    have hargs : Value.Twins p (args.map fun n => (known n).toValue) (args.map fun n => (known' n).toValue) :=
      List.forall₂_map_left_iff.mpr (List.forall₂_map_right_iff.mpr
        (List.forall₂_same.mpr fun n _ => (hk n).toValue))
    refine ⟨p, .refl p, ?_⟩
    simp only [make]
    -- a function takes the arguments if it is applied to none yet and takes more of them
    rcases rel_cases (hk fn).toValue.callable? with ⟨hc, hc'⟩ | ⟨⟨f, before⟩, ⟨f', before'⟩, hc, hc', hf, hb⟩
    · rw [hc, hc']
      exact ⟨.none, ht⟩
    · rw [hc, hc']
      cases hb with
      | nil =>
        simp only [hf.arity]
        split
        · exact ⟨.some (Value.twin_partialApp hf hargs), ht⟩
        · exact ⟨.none, ht⟩
      | cons _ _ => exact ⟨.none, ht⟩
  | function around vars defs source name =>
    obtain ⟨q, hq, hscope, henv⟩ := environment_twin ht hk around vars
    obtain ⟨r, hr, hdefs⟩ := henv.newBindings source defs hscope
    refine ⟨r, hq.trans hr.within, ?_⟩
    have hlookup := hdefs.lookup name _ (hr.within.scopes hscope)
    simp only [make]
    rcases rel_cases hlookup with ⟨hl, hl'⟩ | ⟨v, v', hl, hl', hv⟩
    · rw [hl, hl']
      exact ⟨.none, hdefs⟩
    · rw [hl, hl']
      cases hv with
      | thunk _ => exact ⟨.none, hdefs⟩
      | value hv => cases hv with
        | closure hc => exact ⟨.some (.closure hc), hdefs⟩
        | _ => exact ⟨.none, hdefs⟩

theorem value_twin {c : Craft} {q : Pairing}
    (hr : Option.Rel (Value.Twin q) (c.make known h).1 (c.make known' h').1) :
    (c.value known h).Twin q (c.value known' h') := by
  unfold value
  rcases rel_cases hr with ⟨hc, hc'⟩ | ⟨v, v', hc, hc', hv⟩
  · rw [hc, hc']
    exact .nil
  · rw [hc, hc']
    exact .object hv

/-! ## What is there already -/

theorem grows_surroundings (known : Nat → HostValue) (h : Heap) (around : Option Nat) :
    h.Grows Heap.anyThunk (surroundings known h around).2 := by
  have hrefl : h.Grows Heap.anyThunk h := .refl _ h
  unfold surroundings
  split
  · exact hrefl
  · exact hrefl.newScope _ _

theorem adds_surroundings (known : Nat → HostValue) (h : Heap) (around : Option Nat) :
    h.Adds (surroundings known h around).2 := by
  unfold surroundings
  split
  · exact .of_eq rfl
  · exact .of_eq rfl

theorem fills_make (known : Nat → HostValue) (h : Heap) (c : Craft) : h.Fills [] (c.make known h).2 := by
  have hrefl : h.Grows Heap.anyThunk h := .refl _ h
  cases c with
  | alone v hv => exact .refl _ h
  | cell content => exact (hrefl.newCell _).fills []
  | refilled old content =>
    simp only [make]
    split
    · exact Heap.fills_setCell _ _ _
    · exact .refl _ h
  | partialApp fn args =>
    simp only [make]
    split
    · split <;> exact .refl _ h
    · exact .refl _ h
  | function around vars defs source name =>
    have houter := grows_surroundings known h around
    have henv : h.Grows Heap.anyThunk (environment known h around vars).2 := houter.newScope _ _
    have hdefs := Heap.Grows.newBindings houter.scopes_size source defs henv
    simp only [make]
    split <;> exact hdefs.fills []

theorem adds_make (known : Nat → HostValue) (h : Heap) (c : Craft) : h.Adds (c.make known h).2 := by
  cases c with
  | alone v hv => exact .of_eq rfl
  | cell content => exact .of_eq rfl
  | refilled old content =>
    simp only [make]
    split <;> exact .of_eq rfl
  | partialApp fn args =>
    simp only [make]
    split
    · split <;> exact .of_eq rfl
    · exact .of_eq rfl
  | function around vars defs source name =>
    have henv : h.Adds (environment known h around vars).2 :=
      (adds_surroundings known h around).trans (.of_eq rfl)
    have hdefs := henv.trans (Heap.adds_newBindings (environment known h around vars).1 source defs _)
    simp only [make]
    split <;> exact hdefs

end Craft

end LazySession

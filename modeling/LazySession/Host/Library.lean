import LazySession.Heap

/-!
# Libraries of host functions

The functions of a host are its own code. What is taken for granted of them stands here: a call is settled
by the name, by what the function holds on to and by its arguments. So a function keeps no state from one
call to the next and writes nothing into the objects that it is given.
-/

namespace LazySession

/-- The value is what a host function without parameters gives; if it gives nothing, that is `()`. -/
def Value.GivenBy
    (call : (name : String) → (held : List Content) → (args : List HostValue) →
      Except String (List HostValue)) (v fn : Value) : Prop :=
  ∃ type variadic results name held vs, fn = .host ⟨type, .func name held⟩ ∧
    type.base = .func [] variadic results ∧
    call name held [] = .ok vs ∧ (vs = [] ∧ v = .unit ∨ ∃ r, vs = [r] ∧ v = r.toValue)

/-- What the functions of a host do. A function is called by its name with the values it holds on
to and with its arguments; it gives its results or fails with a text. -/
structure HostLibrary where
  call : (name : String) → (held : List Content) → (args : List HostValue) →
    Except String (List HostValue)
  /-- Functions without parameters do not give such functions for ever, so that applying them comes
  to an end. -/
  nullary : WellFounded (Value.GivenBy call)
  /-- How the host prints an object of the language, with addresses perhaps. -/
  objectText : Heap → Value → String := Heap.inspect

namespace HostLibrary

/-- The library without functions. -/
def empty : HostLibrary where
  call _ _ _ := .ok []
  nullary := by
    refine ⟨fun fn => ⟨_, fun v h => ⟨_, fun u hu => ?_⟩⟩⟩
    obtain ⟨_, _, _, _, _, _, _, _, hc, ⟨-, rfl⟩ | ⟨r, rfl, -⟩⟩ := h
    · obtain ⟨_, _, _, _, _, _, hfn, _⟩ := hu
      cases hfn
    · cases hc

end HostLibrary

end LazySession

import StackText.Code.Listing
import StackText.Machine.Basic

/-! A workbench: a chunk that is put together by hand beside a machine that runs it. Functions
can be made of the chunk while it is unfinished; they grow with it.
-/

namespace StackText

/-- Changes every function inside a value. -/
def Value.mapFunctions (change : Function → Function) : Value → Value
  | .func f => .func (change f)
  | .pair serial l r => .pair serial (l.mapFunctions change) (r.mapFunctions change)
  | v => v

/-- A machine, a chunk, and the functions made of the chunk. -/
structure Workbench where
  machine : Machine
  chunk : Chunk := {}
  bound : List Identity := []

namespace Workbench

/-- Replaces the chunk, also in the functions that were made of it. -/
def withChunk (bench : Workbench) (chunk : Chunk) : Workbench :=
  let change (f : Function) : Function :=
    if bench.bound.contains f.identity then { f with chunk } else f
  let store := bench.machine.store
  let machine := {
    bench.machine with
    store := {
      store with
      values := store.values.map (·.mapFunctions change)
      covered := by rw [Array.size_map, store.covered]
    }
    stack := bench.machine.stack.map (·.mapFunctions change)
  }
  { bench with chunk, machine }

/-- Binds a name to a function made of the chunk. -/
def bind (bench : Workbench) (name : String) (id : Nat) : Nat × Workbench :=
  let identity := Identity.serial bench.machine.serial
  let f : Function := ⟨bench.chunk, some id, identity⟩
  let (slot, store) := bench.machine.store.define name (.func f)
  let machine := { bench.machine with store, serial := bench.machine.serial + 1 }
  (slot, { bench with machine, bound := identity :: bench.bound })

end Workbench

end StackText

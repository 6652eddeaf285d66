/-
Bpfsnoop.Lib.Cache — partial tables, and what holds of all they hold.
-/
import Mathlib.Logic.Function.Basic

namespace Bpfsnoop.Lib

variable {κ α : Type}

/-- A table of the keys seen so far. -/
abbrev Table (κ α : Type) := κ → Option α

namespace Table

def empty : Table κ α := fun _ => none

/-- Every entry is such as `P` says. -/
def Holds (c : Table κ α) (P : κ → α → Prop) : Prop := ∀ k a, c k = some a → P k a

variable {c : Table κ α} {P Q : κ → α → Prop}

theorem holds_empty : (empty : Table κ α).Holds P := fun _ _ h => by cases h

theorem Holds.mono (h : c.Holds P) (hPQ : ∀ k a, P k a → Q k a) : c.Holds Q :=
  fun k a hk => hPQ k a (h k a hk)

theorem Holds.update [DecidableEq κ] {k : κ} {a : α} (h : c.Holds P) (hk : P k a) :
    Table.Holds (Function.update c k (some a)) P := by
  intro k' a' h'
  rw [Function.update_apply] at h'
  split at h'
  · rename_i hkk
    cases h'
    exact hkk ▸ hk
  · exact h k' a' h'

end Table

end Bpfsnoop.Lib

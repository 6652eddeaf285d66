/-
Bpfsnoop.Lib.ElementMap — maps whose lookups are pointers.

A lookup gives a pointer to the element that holds the value of a key. A
deleted element is free at once, and an update of any key may take it; a
pointer to it then reads the value of the other key.
-/
import Mathlib.Logic.Function.Basic

namespace Bpfsnoop.Lib

/-- A map with elements of `ε`. No element is in use for two keys. -/
structure ElementMap (κ ε β : Type) where
  table : κ → Option ε
  value : ε → β
  apart : ∀ k k' e, table k = some e → table k' = some e → k = k'

namespace ElementMap

variable {κ ε β : Type} {m : ElementMap κ ε β} {k k' : κ} {e e' : ε} {b : β}

/-- No key uses the element. -/
def Free (m : ElementMap κ ε β) (e : ε) : Prop := ∀ k, m.table k ≠ some e

def empty (value : ε → β) : ElementMap κ ε β where
  table _ := none
  value := value
  apart _ _ _ h := by cases h

/-- An update takes a free element; one the key had is released. -/
def update [DecidableEq κ] [DecidableEq ε] (m : ElementMap κ ε β) (k : κ) (e : ε) (b : β)
    (hfree : m.Free e) : ElementMap κ ε β where
  table := Function.update m.table k (some e)
  value := Function.update m.value e b
  apart := by
    intro k₁ k₂ e' h₁ h₂
    rw [Function.update_apply] at h₁ h₂
    split at h₁ <;> split at h₂
    · rename_i hk₁ hk₂
      exact hk₁.trans hk₂.symm
    · cases h₁
      exact absurd h₂ (hfree k₂)
    · cases h₂
      exact absurd h₁ (hfree k₁)
    · exact m.apart k₁ k₂ e' h₁ h₂

def delete [DecidableEq κ] (m : ElementMap κ ε β) (k : κ) : ElementMap κ ε β where
  table := Function.update m.table k none
  value := m.value
  apart := by
    intro k₁ k₂ e' h₁ h₂
    rw [Function.update_apply] at h₁ h₂
    split at h₁ <;> split at h₂ <;> try contradiction
    exact m.apart k₁ k₂ e' h₁ h₂

/-! ## What the operations change -/

/-- The element of a key is not the one an update takes. -/
theorem ne_of_table (hfree : m.Free e) (h : m.table k = some e') : e' ≠ e := by
  rintro rfl
  exact hfree k h

section Update

variable [DecidableEq κ] [DecidableEq ε] (hfree : m.Free e)

@[simp] theorem table_update_self : (m.update k e b hfree).table k = some e :=
  Function.update_self ..

theorem table_update_of_ne (h : k' ≠ k) : (m.update k e b hfree).table k' = m.table k' :=
  Function.update_of_ne h ..

@[simp] theorem value_update_self : (m.update k e b hfree).value e = b :=
  Function.update_self ..

theorem value_update_of_ne (h : e' ≠ e) : (m.update k e b hfree).value e' = m.value e' :=
  Function.update_of_ne h ..

/-- An update leaves the other free elements free. -/
theorem free_update (hother : m.Free e') (hne : e' ≠ e) :
    (m.update k e b hfree).Free e' := by
  intro k' hk'
  by_cases hkk : k' = k
  · rw [hkk, table_update_self, Option.some.injEq] at hk'
    exact hne hk'.symm
  · rw [table_update_of_ne hfree hkk] at hk'
    exact hother k' hk'

end Update

section Delete

variable [DecidableEq κ]

@[simp] theorem table_delete_self : (m.delete k).table k = none := Function.update_self ..

theorem table_delete_of_ne (h : k' ≠ k) : (m.delete k).table k' = m.table k' :=
  Function.update_of_ne h ..

@[simp] theorem value_delete : (m.delete k).value = m.value := rfl

/-- The element of a deleted key is free. -/
theorem free_delete (h : m.table k = some e) : (m.delete k).Free e := by
  intro k' hk'
  by_cases hkk : k' = k
  · rw [hkk, table_delete_self] at hk'
    cases hk'
  · rw [table_delete_of_ne hkk] at hk'
    exact hkk (m.apart k' k e hk' h)

end Delete

end ElementMap

end Bpfsnoop.Lib

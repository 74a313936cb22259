import Lox.Scope

/-!
# What all bindings of a heap have in common

`Heap.Holds P h`: every value bound in a scope of the heap is in `P`.  Making a scope and binding a
value in `P` keep this, and a variable that is found has a value in `P`.
-/

namespace Lox

variable {α : Type} {P : α → Prop}

/-- A binding behind `Scope.bind` is the new one or was there before. -/
theorem Scope.mem_bind {name : Name} {v : α} {bindings : List (Name × α)} {b : Name × α}
    (h : b ∈ Scope.bind name v bindings) : b.2 = v ∨ b ∈ bindings := by
  induction bindings with
  | nil =>
      rw [Scope.bind, List.mem_singleton] at h
      exact .inl (by rw [h])
  | cons first rest ih =>
      obtain ⟨other, old⟩ := first
      rw [Scope.bind] at h
      split at h
      · rcases List.mem_cons.mp h with rfl | h'
        · exact .inl rfl
        · exact .inr (List.mem_cons_of_mem _ h')
      · rcases List.mem_cons.mp h with rfl | h'
        · exact .inr List.mem_cons_self
        · rcases ih h' with hv | hr
          · exact .inl hv
          · exact .inr (List.mem_cons_of_mem _ hr)

namespace Heap

/-- Every value bound in a scope of the heap is in `P`. -/
def Holds (P : α → Prop) (h : Heap α) : Prop := ∀ s ∈ h.scopes, ∀ b ∈ s.bindings, P b.2

theorem Holds.empty : Holds P Heap.empty := by
  intro s hs
  cases hs with
  | mk hs => cases hs

theorem Holds.push {h : Heap α} (hh : h.Holds P) (enclosing : Option Nat) :
    (h.push enclosing).Holds P := by
  intro s hs b hb
  rcases Array.mem_push.mp hs with hs' | rfl
  · exact hh s hs' b hb
  · cases hb

/-- What is bound has to have the property. -/
theorem Holds.define {h : Heap α} (hh : h.Holds P) (id : Nat) (name : Name) {v : α} (hv : P v) :
    (h.define id name v).Holds P := by
  intro s hs b hb
  obtain ⟨i, hi, rfl⟩ := Array.mem_iff_getElem.mp hs
  simp only [Heap.define, Array.size_modify] at hi
  have hold : ∀ b ∈ h.scopes[i].bindings, P b.2 := hh _ (Array.getElem_mem hi)
  simp only [Heap.define, Array.getElem_modify] at hb
  split at hb
  · rcases Scope.mem_bind hb with hb' | hb'
    · rwa [hb']
    · exact hold b hb'
  · exact hold b hb

theorem Holds.defineAll {h : Heap α} (hh : h.Holds P) (id : Nat) {bindings : List (Name × α)}
    (hb : ∀ b ∈ bindings, P b.2) : (h.defineAll id bindings).Holds P := by
  induction bindings generalizing h with
  | nil => exact hh
  | cons first rest ih =>
      rw [List.forall_mem_cons] at hb
      exact ih (hh.define id first.1 hb.1) hb.2

/-- A variable that is found has one of the values bound. -/
theorem Holds.lookup? {h : Heap α} (hh : h.Holds P) {id : Nat} {name : Name} {v : α}
    (hv : h.lookup? id name = some v) : P v := by
  rw [Heap.lookup?] at hv
  split at hv
  · cases hv
  · split at hv
    · cases hv
    · rename_i s hs
      obtain ⟨l₁, l₂, hm, -⟩ := List.lookup_eq_some_iff.mp hv
      have hmem : (name, v) ∈ s.bindings := by
        rw [hm]
        exact List.mem_append_right _ List.mem_cons_self
      exact hh s (Array.mem_of_getElem? hs) _ hmem

end Heap

end Lox

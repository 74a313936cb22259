import Lox.Proofs.Scope

/-!
# Chains of scopes

A heap is *rooted* when its first scope stands alone and every other scope is made inside an earlier
one.  Then the scopes around a scope form a chain of smaller and smaller numbers that ends at the
first one (`Heap.Rooted.exists_chain`), and the walks of the heap go along this chain: a name is
looked for in each of its scopes in turn, and the depth is the number of scopes around
(`Heap.Chain.resolve?_eq`, `Heap.Chain.depth_eq`).  The bound on the steps of a walk never cuts it
off.

`Heap.Grows h h'`: the scopes of `h` are in `h'`, inside the same scopes as before.  Making a scope
and binding names are the only changes of a heap, and both let it grow.
-/

namespace Lox

variable {α : Type}

namespace Heap

variable {h h' h'' : Heap α} {i j : Nat} {s : Scope α}

/-! ### Scopes behind a change -/

theorem lt_size_of_get? (hs : h.get? i = some s) : i < h.size :=
  (Array.getElem?_eq_some_iff.mp hs).1

theorem exists_get? (hi : i < h.size) : ∃ s, h.get? i = some s :=
  ⟨h.scopes[i], Array.getElem?_eq_getElem hi⟩

theorem get?_eq_none (hi : h.size ≤ i) : h.get? i = none := Array.getElem?_eq_none hi

@[simp] theorem size_push (h : Heap α) (enclosing : Option Nat) :
    (h.push enclosing).size = h.size + 1 := Array.size_push _

/-- The scope made last is behind the others and binds nothing. -/
theorem get?_push (h : Heap α) (enclosing : Option Nat) (i : Nat) :
    (h.push enclosing).get? i = if i = h.size then some ⟨enclosing, []⟩ else h.get? i :=
  Array.getElem?_push

@[simp] theorem size_define (h : Heap α) (id : Nat) (name : Name) (v : α) :
    (h.define id name v).size = h.size := Array.size_modify

/-- A binding is put in one scope only. -/
theorem get?_define (h : Heap α) (id : Nat) (name : Name) (v : α) (i : Nat) :
    (h.define id name v).get? i =
      if id = i then (h.get? i).map (·.put name v) else h.get? i := by
  simp only [define, get?, Array.getElem?_modify]

/-- Binding names makes no scope. -/
@[simp] theorem size_defineAll (h : Heap α) (id : Nat) (bindings : List (Name × α)) :
    (h.defineAll id bindings).size = h.size := by
  induction bindings generalizing h with
  | nil => rfl
  | cons b bindings ih => exact (ih _).trans (size_define _ _ _ _)

/-- Binding names leaves a scope inside the same scope. -/
theorem enclosing_defineAll (h : Heap α) (id : Nat) (bindings : List (Name × α)) (i : Nat) :
    ((h.defineAll id bindings).get? i).map (·.enclosing) = (h.get? i).map (·.enclosing) := by
  induction bindings generalizing h with
  | nil => rfl
  | cons b bindings ih =>
      refine (ih _).trans ?_
      rw [get?_define]
      split
      · cases h.get? i with
        | none => rfl
        | some s => rfl
      · rfl

/-! ### Growing -/

/-- The scopes of the first heap are in the second, inside the same scopes. -/
def Grows (h h' : Heap α) : Prop :=
  ∀ i s, h.get? i = some s → ∃ s', h'.get? i = some s' ∧ s'.enclosing = s.enclosing

namespace Grows

theorem refl (h : Heap α) : h.Grows h := fun _ s hs => ⟨s, hs, rfl⟩

/-- What has grown twice has grown. -/
theorem trans (h₁ : h.Grows h') (h₂ : h'.Grows h'') : h.Grows h'' := by
  intro i s hs
  obtain ⟨s', hs', he'⟩ := h₁ i s hs
  obtain ⟨s'', hs'', he''⟩ := h₂ i s' hs'
  exact ⟨s'', hs'', he''.trans he'⟩

/-- No scope gets lost. -/
theorem size_le (hg : h.Grows h') : h.size ≤ h'.size := by
  rcases Nat.eq_zero_or_pos h.size with hz | hpos
  · rw [hz]
    exact Nat.zero_le _
  · obtain ⟨s, hs⟩ := exists_get? (Nat.sub_one_lt_of_lt hpos)
    obtain ⟨s', hs', -⟩ := hg _ s hs
    have hlt := lt_size_of_get? hs'
    omega

/-- Heaps whose scopes have the same links. -/
theorem of_links (hl : ∀ i, (h'.get? i).map (·.enclosing) = (h.get? i).map (·.enclosing)) :
    h.Grows h' := by
  intro i s hs
  have hi := hl i
  rw [hs] at hi
  exact Option.map_eq_some_iff.mp hi

theorem push (h : Heap α) (enclosing : Option Nat) : h.Grows (h.push enclosing) := by
  intro i s hs
  refine ⟨s, ?_, rfl⟩
  rw [get?_push, if_neg (Nat.ne_of_lt (lt_size_of_get? hs)), hs]

theorem defineAll (h : Heap α) (id : Nat) (bindings : List (Name × α)) :
    h.Grows (h.defineAll id bindings) :=
  of_links (enclosing_defineAll h id bindings)

theorem define (h : Heap α) (id : Nat) (name : Name) (v : α) : h.Grows (h.define id name v) :=
  defineAll h id [(name, v)]

end Grows

/-! ### Walks -/

/-- Every scope is made inside an earlier one. -/
def Descends (h : Heap α) : Prop := ∀ i s o, h.get? i = some s → s.enclosing = some o → o < i

/-- Any bound on the steps is enough that is beyond the number of the scope. -/
theorem resolveFrom_eq (hd : h.Descends) (name : Name) {fuel : Nat} (hf : i < fuel) :
    h.resolveFrom name fuel i = h.resolve? i name := by
  induction i using Nat.strongRecOn generalizing fuel with
  | ind i ih =>
      obtain ⟨fuel, rfl⟩ : ∃ k, fuel = k + 1 := ⟨fuel - 1, by omega⟩
      rw [resolve?, resolveFrom, resolveFrom]
      cases hs : h.get? i with
      | none => rfl
      | some s =>
          cases ho : s.enclosing with
          | none => simp only [ho]
          | some o =>
              have hlt := hd i s o hs ho
              simp only [ho, ih o hlt (by omega : o < fuel), ih o hlt hlt]

/-- One step of the walk to a name. -/
theorem resolve?_eq (hd : h.Descends) (name : Name) (hs : h.get? i = some s) :
    h.resolve? i name = if s.defines name then some i else
      match s.enclosing with
      | none => none
      | some o => h.resolve? o name := by
  rw [resolve?, resolveFrom]
  cases ho : s.enclosing with
  | none => simp only [hs, ho]
  | some o => simp only [hs, ho, resolveFrom_eq hd name (hd i s o hs ho)]

/-- With more steps than the number of the scope, the bound on a walk does not matter. -/
theorem depthFrom_eq (hd : h.Descends) {fuel : Nat} (hf : i < fuel) :
    h.depthFrom fuel i = h.depth i := by
  induction i using Nat.strongRecOn generalizing fuel with
  | ind i ih =>
      obtain ⟨fuel, rfl⟩ : ∃ k, fuel = k + 1 := ⟨fuel - 1, by omega⟩
      rw [depth, depthFrom, depthFrom]
      cases hs : h.get? i with
      | none => rfl
      | some s =>
          cases ho : s.enclosing with
          | none => simp only [ho]
          | some o =>
              have hlt := hd i s o hs ho
              simp only [ho, ih o hlt (by omega : o < fuel), ih o hlt hlt]

/-- One step of the walk to the outermost scope. -/
theorem depth_eq (hd : h.Descends) (hs : h.get? i = some s) :
    h.depth i = match s.enclosing with
      | none => 0
      | some o => h.depth o + 1 := by
  rw [depth, depthFrom]
  cases ho : s.enclosing with
  | none => simp only [hs, ho]
  | some o => simp only [hs, ho, depthFrom_eq hd (hd i s o hs ho)]

/-! ### Chains -/

/-- The scopes around a scope, from itself to the outermost one. -/
inductive Chain (h : Heap α) : Nat → List Nat → Prop where
  | root {i : Nat} {s : Scope α} (hs : h.get? i = some s) (ho : s.enclosing = none) : Chain h i [i]
  | inside {i o : Nat} {s : Scope α} {l : List Nat} (hs : h.get? i = some s)
      (ho : s.enclosing = some o) (hc : Chain h o l) : Chain h i (i :: l)

/-- Whether a name is bound in a scope. -/
def binds (h : Heap α) (name : Name) (i : Nat) : Bool :=
  match h.get? i with
  | some s => s.defines name
  | none => false

namespace Chain

variable {l : List Nat}

/-- A name is looked for along the whole chain. -/
theorem resolve?_eq (hd : h.Descends) (hc : h.Chain i l) (name : Name) :
    h.resolve? i name = l.find? (h.binds name) := by
  induction hc with
  | @root i s hs ho =>
      rw [Heap.resolve?_eq hd name hs, ho, List.find?_cons]
      simp only [binds, hs]
      cases s.defines name <;> rfl
  | @inside i o s l hs ho _ ih =>
      rw [Heap.resolve?_eq hd name hs, ho, List.find?_cons]
      simp only [binds, hs]
      cases s.defines name with
      | true => rfl
      | false => exact ih

/-- The depth counts the whole chain. -/
theorem depth_eq (hd : h.Descends) (hc : h.Chain i l) : h.depth i + 1 = l.length := by
  induction hc with
  | root hs ho => rw [Heap.depth_eq hd hs, ho, List.length_singleton]
  | inside hs ho _ ih =>
      rw [Heap.depth_eq hd hs, ho, List.length_cons]
      exact congrArg (· + 1) ih

/-- The numbers get smaller along a chain. -/
theorem pairwise (hd : h.Descends) (hc : h.Chain i l) : l.Pairwise (· > ·) ∧ ∀ j ∈ l, j ≤ i := by
  induction hc with
  | root => exact ⟨List.pairwise_singleton _ _, fun j hj => Nat.le_of_eq (List.mem_singleton.mp hj)⟩
  | @inside i o s l hs ho _ ih =>
      have hlt := hd i s o hs ho
      refine ⟨List.pairwise_cons.mpr ⟨fun j hj => ?_, ih.1⟩, fun j hj => ?_⟩
      · exact Nat.lt_of_le_of_lt (ih.2 j hj) hlt
      · rcases List.mem_cons.mp hj with rfl | hj
        · exact Nat.le_refl _
        · exact Nat.le_of_lt (Nat.lt_of_le_of_lt (ih.2 j hj) hlt)

end Chain

/-! ### Rooted heaps -/

/-- The first scope stands alone, and every other one is made inside an earlier one. -/
structure Rooted (h : Heap α) : Prop where
  first : ∃ s, h.get? 0 = some s ∧ s.enclosing = none
  inside : ∀ i s, h.get? i = some s → i ≠ 0 → ∃ o, s.enclosing = some o ∧ o < i

/-- What walking along the scopes of a heap comes to. -/
structure Walks (h : Heap α) : Prop where
  /-- The chain of each scope is finite, goes to earlier and earlier scopes and ends at the first one,
  and a walk goes along all of it. -/
  chain : ∀ i < h.size, ∃ l, h.Chain i l ∧ l.Pairwise (· > ·) ∧ l.getLast? = some 0 ∧
    (∀ name, h.resolve? i name = l.find? (h.binds name)) ∧ h.depth i + 1 = l.length
  /-- A name that is bound in the first scope only is found there from everywhere. -/
  globals : ∀ name g v, h.get? 0 = some g → g.find? name = some v →
    (∀ i ≠ 0, h.binds name i = false) →
    ∀ i < h.size, h.resolve? i name = some 0 ∧ h.lookup? i name = some v

namespace Rooted

theorem size_pos (hr : h.Rooted) : 0 < h.size := by
  obtain ⟨s, hs, -⟩ := hr.first
  exact lt_size_of_get? hs

/-- In a rooted heap, every scope is inside an earlier one. -/
theorem descends (hr : h.Rooted) : h.Descends := by
  intro i s o hs ho
  by_cases hi : i = 0
  · obtain ⟨s', hs', ho'⟩ := hr.first
    rw [hi, hs'] at hs
    cases hs
    rw [ho'] at ho
    cases ho
  · obtain ⟨o', ho', hlt⟩ := hr.inside i s hs hi
    rw [ho] at ho'
    cases ho'
    exact hlt

/-- A heap stays rooted when a scope is made inside one of its scopes. -/
theorem push (hr : h.Rooted) {o : Nat} (ho : o < h.size) : (h.push (some o)).Rooted := by
  have hne : 0 ≠ h.size := Nat.ne_of_lt hr.size_pos
  constructor
  · rw [get?_push, if_neg hne]
    exact hr.first
  · intro i s hs hi
    rw [get?_push] at hs
    split at hs
    · rename_i heq
      cases hs
      exact ⟨o, rfl, heq ▸ ho⟩
    · exact hr.inside i s hs hi

/-- Whether a heap is rooted depends only on which scopes are inside which. -/
theorem of_links (hr : h.Rooted)
    (hl : ∀ i, (h'.get? i).map (·.enclosing) = (h.get? i).map (·.enclosing)) : h'.Rooted := by
  constructor
  · obtain ⟨s, hs, ho⟩ := hr.first
    obtain ⟨s', hs', ho'⟩ := Grows.of_links hl 0 s hs
    exact ⟨s', hs', ho'.trans ho⟩
  · intro i s hs hi
    obtain ⟨s', hs', he⟩ := Grows.of_links (fun i => (hl i).symm) i s hs
    rw [← he]
    exact hr.inside i s' hs' hi

theorem define (hr : h.Rooted) (id : Nat) (name : Name) (v : α) : (h.define id name v).Rooted :=
  hr.of_links (enclosing_defineAll h id [(name, v)])

theorem defineAll (hr : h.Rooted) (id : Nat) (bindings : List (Name × α)) :
    (h.defineAll id bindings).Rooted :=
  hr.of_links (enclosing_defineAll h id bindings)

/-- Every scope has a chain, and it ends at the first scope. -/
theorem exists_chain (hr : h.Rooted) (hi : i < h.size) :
    ∃ l, h.Chain i l ∧ l.getLast? = some 0 := by
  induction i using Nat.strongRecOn with
  | ind i ih =>
      obtain ⟨s, hs⟩ := exists_get? hi
      by_cases hz : i = 0
      · obtain ⟨s', hs', ho⟩ := hr.first
        subst hz
        exact ⟨[0], .root hs' ho, rfl⟩
      · obtain ⟨o, ho, hlt⟩ := hr.inside i s hs hz
        obtain ⟨l, hc, hl⟩ := ih o hlt (Nat.lt_trans hlt hi)
        refine ⟨i :: l, .inside hs ho hc, ?_⟩
        rw [List.getLast?_cons, hl]
        rfl

/-- A name that only the first scope binds is found there from every scope. -/
theorem resolve?_globals (hr : h.Rooted) {name : Name} (h₀ : h.binds name 0 = true)
    (hother : ∀ i ≠ 0, h.binds name i = false) (hi : i < h.size) : h.resolve? i name = some 0 := by
  induction i using Nat.strongRecOn with
  | ind i ih =>
      obtain ⟨s, hs⟩ := exists_get? hi
      rw [resolve?_eq hr.descends name hs]
      by_cases hz : i = 0
      · subst hz
        rw [binds, hs] at h₀
        rw [if_pos h₀]
      · obtain ⟨o, ho, hlt⟩ := hr.inside i s hs hz
        have hb := hother i hz
        rw [binds, hs] at hb
        rw [if_neg (by simp [hb]), ho]
        exact ih o hlt (Nat.lt_trans hlt hi)

/-- **Walks end, and they end at the first scope.** -/
theorem walks (hr : h.Rooted) : h.Walks := by
  constructor
  · intro i hi
    obtain ⟨l, hc, hl⟩ := hr.exists_chain hi
    exact ⟨l, hc, (hc.pairwise hr.descends).1, hl, hc.resolve?_eq hr.descends,
      hc.depth_eq hr.descends⟩
  · intro name g v hg hv hother i hi
    have h₀ : h.binds name 0 = true := by
      rw [binds, hg]
      simp [Scope.defines, hv]
    have hres := hr.resolve?_globals h₀ hother hi
    refine ⟨hres, ?_⟩
    rw [lookup?, hres]
    simp only [hg, hv]

end Rooted

end Heap

end Lox

import Lox.Machine
import Lox.Proofs.Scope.Chain

/-!
# Lexical scoping

Scopes are shared: one binding is seen through every scope inside the one that holds it, as long as no
scope in between binds the same name.  A forest of scopes is built by making scopes and binding names, in
any order (`Heap.Built`).

* `Heap.Sees h x e r`: the chain of `e` passes through `r`, and no scope in front of `r` binds `x`.
* `Heap.Innermost h x e r`: moreover `r` binds `x`.  This is where a walk ends
  (`Heap.resolve?_eq_some_iff`).
* `Heap.lookup?_define_of_sees`, `Heap.lookup?_define_of_not_sees`: a binding changes what is found
  through the scopes that see it, and nothing else.
* `Machine.lexicallyScoped`: what looking up, assigning and binding come to on a machine.
-/

namespace Lox

variable {α : Type}

/-! ### Names of one scope -/

namespace Scope

/-- A binding changes what one name stands for. -/
theorem lookup_bind (name other : Name) (v : α) (bindings : List (Name × α)) :
    (Scope.bind name v bindings).lookup other =
      if other = name then some v else bindings.lookup other := by
  induction bindings with
  | nil =>
      by_cases h : other = name
      · simp [Scope.bind, h]
      · simp [Scope.bind, List.lookup_cons, beq_false_of_ne h, h]
  | cons first rest ih =>
      obtain ⟨known, old⟩ := first
      rw [Scope.bind]
      by_cases hk : known = name
      · subst hk
        rw [if_pos rfl]
        by_cases h : other = known
        · simp [h]
        · simp [List.lookup_cons, beq_false_of_ne h, h]
      · rw [if_neg hk]
        by_cases h : other = known
        · simp [h, hk]
        · simp [List.lookup_cons, beq_false_of_ne h, ih]

theorem find?_put (s : Scope α) (name other : Name) (v : α) :
    (s.put name v).find? other = if other = name then some v else s.find? other :=
  lookup_bind name other v s.bindings

end Scope

namespace Heap

variable {h h' : Heap α} {e i r : Nat} {x y : Name} {v : α} {s : Scope α}

/-- The value that a scope by itself binds a name to. -/
def valueAt? (h : Heap α) (i : Nat) (name : Name) : Option α := (h.get? i).bind (·.find? name)

theorem binds_eq_isSome (h : Heap α) (x : Name) (i : Nat) :
    h.binds x i = (h.valueAt? i x).isSome := by
  rw [binds, valueAt?]
  cases h.get? i <;> rfl

/-- What one scope binds changes for one name, if the scope is there. -/
theorem valueAt?_define (h : Heap α) (id : Nat) (x : Name) (v : α) (i : Nat) (y : Name) :
    (h.define id x v).valueAt? i y =
      if id = i ∧ y = x ∧ i < h.size then some v else h.valueAt? i y := by
  rw [valueAt?, valueAt?, get?_define]
  by_cases hid : id = i
  · cases hs : h.get? i with
    | none =>
        have hlt : ¬ i < h.size := fun hlt => by
          obtain ⟨s, hs'⟩ := exists_get? hlt
          rw [hs] at hs'
          cases hs'
        simp [hid, hlt]
    | some s => simp [hid, lt_size_of_get? hs, Scope.find?_put]
  · simp [hid]

/-- A scope has the names it had and the one that is bound. -/
theorem binds_define (h : Heap α) (id : Nat) (x : Name) (v : α) (i : Nat) (y : Name) :
    (h.define id x v).binds y i = true ↔ h.binds y i = true ∨ id = i ∧ y = x ∧ i < h.size := by
  rw [binds_eq_isSome, binds_eq_isSome, valueAt?_define]
  split
  · rename_i hc
    simp [hc]
  · rename_i hc
    simp [hc]

/-- A name that is bound already is not a new one. -/
theorem binds_define_of_binds (hx : h.binds x r = true) (y : Name) (i : Nat) :
    (h.define r x v).binds y i = h.binds y i := by
  rw [Bool.eq_iff_iff, binds_define]
  refine or_iff_left_of_imp ?_
  rintro ⟨rfl, rfl, -⟩
  exact hx

/-- A look-up takes the value in the scope at which the walk ends. -/
theorem lookup?_eq (h : Heap α) (e : Nat) (x : Name) :
    h.lookup? e x = (h.resolve? e x).bind fun r => h.valueAt? r x := by
  rw [lookup?]
  cases h.resolve? e x with
  | none => rfl
  | some r =>
      dsimp only [Option.bind_some, valueAt?]
      cases h.get? r <;> rfl

/-! ### Forests -/

/-- Built from nothing by making scopes, binding names in scopes that are there, and assigning. -/
inductive Built : Heap α → Prop where
  | empty : Built Heap.empty
  | new {h : Heap α} (hb : Built h) {enclosing : Option Nat} (ho : ∀ o ∈ enclosing, o < h.size) :
      Built (h.push enclosing)
  | define {h : Heap α} (hb : Built h) {id : Nat} (hi : id < h.size) (name : Name) (v : α) :
      Built (h.define id name v)
  | assign {h h' : Heap α} (hb : Built h) {id : Nat} {name : Name} {v : α}
      (ha : h.assign? id name v = some h') : Built h'

theorem Descends.push (hd : h.Descends) {enclosing : Option Nat}
    (ho : ∀ o ∈ enclosing, o < h.size) : (h.push enclosing).Descends := by
  intro i s o hs he
  rw [get?_push] at hs
  split at hs
  · rename_i hi
    cases hs
    rw [hi]
    exact ho o he
  · exact hd i s o hs he

theorem Descends.define (hd : h.Descends) (id : Nat) (x : Name) (v : α) :
    (h.define id x v).Descends := by
  intro i s o hs he
  obtain ⟨s', hs', he'⟩ := Grows.of_links (fun i => (enclosing_defineAll h id [(x, v)] i).symm) i s hs
  exact hd i s' o hs' (he'.trans he)

/-- A forest has no cycles. -/
theorem Built.descends (hb : h.Built) : h.Descends := by
  induction hb with
  | empty =>
      intro i s o hs
      cases hs
  | new _ ho ih => exact ih.push ho
  | define _ _ name v ih => exact ih.define _ name v
  | @assign h h' _ id name v ha ih =>
      rw [assign?] at ha
      split at ha
      · cases ha
      · cases ha
        exact ih.define _ name v

/-- If scopes are inside earlier ones, each of them has a chain. -/
theorem Descends.exists_chain (hd : h.Descends) (hi : i < h.size) : ∃ l, h.Chain i l := by
  induction i using Nat.strongRecOn with
  | ind i ih =>
      obtain ⟨s, hs⟩ := exists_get? hi
      cases ho : s.enclosing with
      | none => exact ⟨[i], .root hs ho⟩
      | some o =>
          have hlt := hd i s o hs ho
          obtain ⟨l, hl⟩ := ih o hlt (Nat.lt_trans hlt hi)
          exact ⟨i :: l, .inside hs ho hl⟩

namespace Chain

variable {l : List Nat}

theorem lt_size (hc : h.Chain i l) : i < h.size := by
  cases hc with
  | root hs _ => exact lt_size_of_get? hs
  | inside hs _ _ => exact lt_size_of_get? hs

/-- Binding names does not change chains. -/
theorem grows (hc : h.Chain i l) (hg : h.Grows h') : h'.Chain i l := by
  induction hc with
  | root hs ho =>
      obtain ⟨s', hs', he⟩ := hg _ _ hs
      exact .root hs' (he.trans ho)
  | inside hs ho _ ih =>
      obtain ⟨s', hs', he⟩ := hg _ _ hs
      exact .inside hs' (he.trans ho) ih

end Chain

/-! ### What a scope sees -/

/-- The chain of a scope passes through another, and no scope in front of that one binds the name. -/
def Sees (h : Heap α) (x : Name) (e r : Nat) : Prop :=
  ∃ front back, h.Chain e (front ++ r :: back) ∧ ∀ i ∈ front, h.binds x i = false

/-- The innermost scope on the chain of a scope that binds a name. -/
def Innermost (h : Heap α) (x : Name) (e r : Nat) : Prop := h.Sees x e r ∧ h.binds x r = true

theorem resolve?_eq_none (hs : h.size ≤ e) (x : Name) : h.resolve? e x = none := by
  rw [resolve?, resolveFrom, get?_eq_none hs]

/-- A walk ends at the innermost scope that binds the name. -/
theorem resolve?_eq_some_iff (hd : h.Descends) : h.resolve? e x = some r ↔ h.Innermost x e r := by
  constructor
  · intro hr
    have he : e < h.size := by
      refine Nat.lt_of_not_le fun hs => ?_
      rw [resolve?_eq_none hs] at hr
      cases hr
    obtain ⟨l, hl⟩ := hd.exists_chain he
    rw [hl.resolve?_eq hd, List.find?_eq_some_iff_append] at hr
    obtain ⟨hbinds, front, back, rfl, hfront⟩ := hr
    exact ⟨⟨front, back, hl, fun i hi => by simpa using hfront i hi⟩, hbinds⟩
  · rintro ⟨⟨front, back, hc, hfront⟩, hbinds⟩
    rw [hc.resolve?_eq hd, List.find?_eq_some_iff_append]
    exact ⟨hbinds, front, back, rfl, fun i hi => by simpa using hfront i hi⟩

/-- A walk finds nothing exactly if no scope on the chain binds the name. -/
theorem resolve?_eq_none_iff (hd : h.Descends) : h.resolve? e x = none ↔ ∀ r, ¬ h.Innermost x e r := by
  rw [Option.eq_none_iff_forall_ne_some]
  exact forall_congr' fun r => not_congr (resolve?_eq_some_iff hd)

/-- A name is found with the value that the innermost scope binds it to. -/
theorem lookup?_of_innermost (hd : h.Descends) (hr : h.Innermost x e r) :
    h.lookup? e x = h.valueAt? r x := by
  rw [lookup?_eq, (resolve?_eq_some_iff hd).mpr hr, Option.bind_some]

/-- Through every scope that sees it, a new binding is found. -/
theorem lookup?_define_of_sees (hd : h.Descends) (hs : h.Sees x e r) :
    (h.define r x v).lookup? e x = some v := by
  obtain ⟨front, back, hc, hfront⟩ := hs
  have hdesc := (hc.pairwise hd).1
  rw [List.pairwise_append] at hdesc
  have hlt : r < h.size :=
    Nat.lt_of_le_of_lt ((hc.pairwise hd).2 r (List.mem_append_right _ List.mem_cons_self)) hc.lt_size
  have hinner : (h.define r x v).Innermost x e r := by
    refine ⟨⟨front, back, hc.grows (.define h r x v), fun i hi => ?_⟩, ?_⟩
    · -- the scopes in front are other ones
      have hne : r ≠ i := Nat.ne_of_lt (hdesc.2.2 i hi r List.mem_cons_self)
      rw [Bool.eq_false_iff, ne_eq, binds_define, hfront i hi]
      simp [hne]
    · exact (binds_define ..).mpr (.inr ⟨rfl, rfl, hlt⟩)
  rw [lookup?_of_innermost (hd.define r x v) hinner, valueAt?_define, if_pos ⟨rfl, rfl, hlt⟩]

/-- A scope among those in front, none of which binds the name, is seen. -/
theorem Sees.of_mem {front back : List Nat} (hc : h.Chain e (front ++ back))
    (hf : ∀ i ∈ front, h.binds x i = false) (hr : r ∈ front) : h.Sees x e r := by
  obtain ⟨before, behind, rfl⟩ := List.append_of_mem hr
  rw [List.append_assoc, List.cons_append] at hc
  exact ⟨before, behind ++ back, hc, fun i hi => hf i (List.mem_append_left _ hi)⟩

/-- Nothing else changes. -/
theorem lookup?_define_of_not_sees (hd : h.Descends) (hs : ¬ (y = x ∧ h.Sees x e r)) :
    (h.define r x v).lookup? e y = h.lookup? e y := by
  have hback : (h.define r x v).Grows h :=
    Grows.of_links fun i => (enclosing_defineAll h r [(x, v)] i).symm
  -- the new binding is not in a scope that the look-up of `y` passes
  have hsee : ∀ front back, h.Chain e (front ++ back) → (∀ i ∈ front, h.binds y i = false) →
      ¬ (y = x ∧ r ∈ front) := by
    rintro front back hc hf ⟨rfl, hr⟩
    exact hs ⟨rfl, .of_mem hc hf hr⟩
  cases hres : h.resolve? e y with
  | some r' =>
      have hinner : h.Innermost y e r' := (resolve?_eq_some_iff hd).mp hres
      obtain ⟨front, back, hc, hfront⟩ := hinner.1
      have hnew : (h.define r x v).Innermost y e r' := by
        refine ⟨⟨front, back, hc.grows (.define h r x v), fun i hi => ?_⟩, ?_⟩
        · rw [Bool.eq_false_iff, ne_eq, binds_define, hfront i hi]
          rintro (hf | ⟨rfl, hyx, -⟩)
          · cases hf
          · exact hsee front _ hc hfront ⟨hyx, hi⟩
        · exact (binds_define ..).mpr (.inl hinner.2)
      rw [lookup?_of_innermost (hd.define r x v) hnew, lookup?_of_innermost hd hinner,
        valueAt?_define, if_neg]
      rintro ⟨rfl, rfl, -⟩
      exact hs ⟨rfl, hinner.1⟩
  | none =>
      have hnone := (resolve?_eq_none_iff hd).mp hres
      have hnew : (h.define r x v).resolve? e y = none := by
        rw [resolve?_eq_none_iff (hd.define r x v)]
        rintro r' ⟨⟨front, back, hc, hfront⟩, hbinds⟩
        have hsees : h.Sees y e r' := by
          refine ⟨front, back, hc.grows hback, fun i hi => ?_⟩
          have hi := hfront i hi
          rw [Bool.eq_false_iff, ne_eq, binds_define, not_or] at hi
          exact Bool.eq_false_iff.mpr hi.1
        rcases (binds_define ..).mp hbinds with hold | ⟨rfl, rfl, -⟩
        · exact hnone r' ⟨hsees, hold⟩
        · exact hs ⟨rfl, hsees⟩
      rw [lookup?_eq, lookup?_eq, hnew, hres]
      rfl

/-- There is one innermost scope at most. -/
theorem Innermost.unique (hd : h.Descends) {r' : Nat} (hr : h.Innermost x e r)
    (hr' : h.Innermost x e r') : r = r' :=
  Option.some.inj (((resolve?_eq_some_iff hd).mpr hr).symm.trans ((resolve?_eq_some_iff hd).mpr hr'))

/-- It holds a value for the name. -/
theorem Innermost.exists_value (hr : h.Innermost x e r) : ∃ w, h.valueAt? r x = some w := by
  rw [← Option.isSome_iff_exists, ← binds_eq_isSome]
  exact hr.2

/-- A scope sees itself. -/
theorem Descends.sees_self (hd : h.Descends) (x : Name) (hi : i < h.size) : h.Sees x i i := by
  obtain ⟨l, hl⟩ := hd.exists_chain hi
  have hfront : ∀ j ∈ ([] : List Nat), h.binds x j = false := fun j hj => nomatch hj
  cases hl with
  | root hs ho => exact ⟨[], [], .root hs ho, hfront⟩
  | @inside _ o s l hs ho hc => exact ⟨[], l, .inside hs ho hc, hfront⟩

/-- A look-up fails exactly if there is none. -/
theorem lookup?_eq_none_iff (hd : h.Descends) :
    h.lookup? e x = none ↔ ∀ r, ¬ h.Innermost x e r := by
  rw [← resolve?_eq_none_iff hd, lookup?_eq]
  refine ⟨fun hl => ?_, fun hr => by rw [hr, Option.bind_none]⟩
  cases hr : h.resolve? e x with
  | none => rfl
  | some r =>
      obtain ⟨w, hw⟩ := ((resolve?_eq_some_iff hd).mp hr).exists_value
      rw [hr, Option.bind_some, hw] at hl
      cases hl

end Heap

/-! ### Variables of a machine -/

/-- What looking up, assigning and binding come to in the current scope of a machine, for a token that
stands for the name `x`. -/
structure Machine.LexicallyScoped (m : Machine) (t : Token) (x : Name) (v : Value) : Prop where
  /-- At most one scope is the innermost one. -/
  innermost : ∀ r r', m.heap.Innermost x m.current r → m.heap.Innermost x m.current r' → r = r'
  /-- A look-up gives what is found from the current scope, and changes nothing. -/
  lookup_iff : ∀ w, Run.lookup t m = .ok w m ↔ m.heap.lookup? m.current x = some w
  /-- That is the value in the innermost scope. -/
  lookup_found : ∀ r, m.heap.Innermost x m.current r →
    ∃ w, m.heap.valueAt? r x = some w ∧ Run.lookup t m = .ok w m
  /-- A look-up stops exactly when no scope around binds the name. -/
  lookup_fails : Run.lookup t m = .stop (.fault (.undefined t)) m ↔
    ∀ r, ¬ m.heap.Innermost x m.current r
  /-- The fault has the spelling of the name. -/
  fault_names : (Fault.undefined t).label? = some "LoxRuntimeError" ∧
    (Fault.undefined t).text = "Undefined variable '" ++ t.lexeme.subject ++ "'."
  /-- An assignment stops in the same cases, with the same fault and no change. -/
  assign_fails : Run.assign t v m = .stop (.fault (.undefined t)) m ↔
    ∀ r, ¬ m.heap.Innermost x m.current r
  /-- Otherwise no scope gets or loses a name, the value is found from every scope whose innermost one is
  the same, and whatever else is looked up is as before. -/
  assign_found : ∀ r, m.heap.Innermost x m.current r →
    ∃ h', Run.assign t v m = .ok () { m with heap := h' } ∧
      (∀ y i, h'.binds y i = m.heap.binds y i) ∧
      (∀ e, m.heap.Innermost x e r → h'.lookup? e x = some v) ∧
      ∀ e y, ¬ (y = x ∧ m.heap.Innermost x e r) → h'.lookup? e y = m.heap.lookup? e y
  /-- A binding gives the current scope that name and no scope another.  It is found from the scopes that
  see the current one, which is itself among them, and whatever else is looked up is as before. -/
  define_changes : ∃ h', Run.define t v m = .ok () { m with heap := h' } ∧
    (∀ y i, h'.binds y i = true ↔ m.heap.binds y i = true ∨ i = m.current ∧ y = x) ∧
    m.heap.Sees x m.current m.current ∧
    (∀ e, m.heap.Sees x e m.current → h'.lookup? e x = some v) ∧
    ∀ e y, ¬ (y = x ∧ m.heap.Sees x e m.current) → h'.lookup? e y = m.heap.lookup? e y

namespace Run

variable {t : Token} {x : Name}

theorem lookup_eq (ht : Name.ofJson? t.lexeme = some x) (m : Machine) :
    lookup t m = match m.heap.lookup? m.current x with
      | some w => .ok w m
      | none => .stop (.fault (.undefined t)) m := by
  cases h : m.heap.lookup? m.current x <;> simp only [lookup, ht, h]

theorem assign_eq (ht : Name.ofJson? t.lexeme = some x) (v : Value) (m : Machine) :
    assign t v m = match m.heap.resolve? m.current x with
      | some r => .ok () { m with heap := m.heap.define r x v }
      | none => .stop (.fault (.undefined t)) m := by
  cases h : m.heap.resolve? m.current x <;> simp only [assign, ht, h]

end Run

/-- Variables are lexically scoped, and scopes are shared. -/
theorem Machine.lexicallyScoped {m : Machine} (hb : m.heap.Built) (hc : m.current < m.heap.size)
    {t : Token} {x : Name} (ht : Name.ofJson? t.lexeme = some x) (v : Value) :
    m.LexicallyScoped t x v := by
  have hd := hb.descends
  constructor
  · exact fun r r' hr hr' => hr.unique hd hr'
  · intro w
    rw [Run.lookup_eq ht]
    cases m.heap.lookup? m.current x <;> simp
  · intro r hr
    obtain ⟨w, hw⟩ := hr.exists_value
    refine ⟨w, hw, ?_⟩
    rw [Run.lookup_eq ht, Heap.lookup?_of_innermost hd hr, hw]
  · rw [← Heap.lookup?_eq_none_iff hd, Run.lookup_eq ht]
    cases m.heap.lookup? m.current x <;> simp
  · exact ⟨rfl, rfl⟩
  · rw [← Heap.resolve?_eq_none_iff hd, Run.assign_eq ht]
    cases m.heap.resolve? m.current x <;> simp
  · intro r hr
    refine ⟨m.heap.define r x v, ?_, ?_, ?_, ?_⟩
    · rw [Run.assign_eq ht, (Heap.resolve?_eq_some_iff hd).mpr hr]
    · exact fun y i => Heap.binds_define_of_binds hr.2 y i
    · exact fun e he => Heap.lookup?_define_of_sees hd he.1
    · intro e y hne
      refine Heap.lookup?_define_of_not_sees hd fun hs => hne ⟨hs.1, hs.2, ?_⟩
      exact hr.2
  · refine ⟨m.heap.define m.current x v, ?_, fun y i => ?_, hd.sees_self x hc, ?_, ?_⟩
    · rw [Run.define, ht]
    · rw [Heap.binds_define]
      refine or_congr_right ⟨fun hy => ⟨hy.1.symm, hy.2.1⟩, ?_⟩
      rintro ⟨rfl, rfl⟩
      exact ⟨rfl, rfl, hc⟩
    · exact fun e he => Heap.lookup?_define_of_sees hd he
    · exact fun e y hne => Heap.lookup?_define_of_not_sees hd hne

/-- A scope with a name, one inside it, and two inside that one, of which the first binds the name
again. -/
def Heap.shadowed : Heap Value :=
  (((((Heap.empty.push none).define 0 (.text "a") .nil).push (some 0)).push (some 1)).define 2 (.text "a")
    (.bool false)).push (some 1)

theorem Heap.shadowed_built : Heap.shadowed.Built := by
  refine .new (.define (.new (.new (.define (.new .empty ?_) ?_ _ _) ?_) ?_) ?_ _ _) ?_ <;> decide

/-- From the last scope of `Heap.shadowed` the outermost one is assigned to, past the one that only the
third scope sees. -/
theorem Machine.lexicallyScoped_shadowed :
    let m : Machine := { (default : Machine) with heap := Heap.shadowed, current := 3 }
    let t : Token := ⟨.identifier, .str "a", .null, .int 1⟩
    m.heap.Innermost (.text "a") 3 0 ∧ m.LexicallyScoped t (.text "a") (.bool true) ∧
      ∃ h', Run.assign t (.bool true) m = .ok () { m with heap := h' } ∧
        h'.lookup? 1 (.text "a") = some (.bool true) ∧ h'.lookup? 2 (.text "a") = some (.bool false) := by
  intro m t
  have hd := Heap.shadowed_built.descends
  have hr : ∀ e ∈ [1, 3], m.heap.Innermost (.text "a") e 0 := by
    intro e he
    rw [← Heap.resolve?_eq_some_iff hd]
    revert e
    decide
  have htwo : m.heap.Innermost (.text "a") 2 2 := (Heap.resolve?_eq_some_iff hd).mp (by decide)
  have hs := Machine.lexicallyScoped (m := m) Heap.shadowed_built (by decide) (t := t) rfl (.bool true)
  obtain ⟨h', ha, -, hsame, hother⟩ := hs.assign_found 0 (hr 3 (by decide))
  refine ⟨hr 3 (by decide), hs, h', ha, hsame 1 (hr 1 (by decide)), ?_⟩
  rw [hother]
  · rfl
  · rintro ⟨-, hi⟩
    exact absurd (hi.unique hd htwo) (by decide)

end Lox
